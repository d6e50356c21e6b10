import BackdropArc.CopyOnWriteUnwind

/-!
# Calls that hand over to another call

`OffsetArc::make_mut` hands its work over to `Arc::make_mut`.  A map of states
replaces the one call by the other, wherever the call has come to and whatever
it runs above it.  The map commutes with every step of every thread, until the
call ends.
-/

namespace BackdropArc

open GuardedRuns

variable {N : Nat} {V S : Type}

/-- The call of `Arc` that does the work. -/
def UniqueCall.inner : UniqueCall → UniqueCall
  | .offsetMakeMut => .makeMut
  | call => call

def Rest.inner : Rest V S → Rest V S
  | .grant call ptr => .grant call.inner ptr
  | rest => rest

def Op.inner : Op V S → Op V S
  | .tested call ptr loaded => .tested call.inner ptr loaded
  | .dropping ptr rest => .dropping ptr rest.inner
  | .dropLoad ptr rest => .dropLoad ptr rest.inner
  | .dropSlow ptr rest => .dropSlow ptr rest.inner
  | op => op

def Call.inner : Call S → Call S
  | .valueClone call ptr => .valueClone call.inner ptr
  | call => call

/-- The stack with the call replaced that has `depth` calls below it. -/
def innerStack (depth : Nat) : List (Call S) → List (Call S)
  | [] => []
  | call :: below =>
      (if below.length = depth then call.inner else call) :: innerStack depth below

/-- The thread with the call replaced that has `depth` calls below it. -/
def Thread.inner (depth : Nat) (thread : Thread V S) : Thread V S where
  op := if thread.stack.length = depth then thread.op.inner else thread.op
  stack := innerStack depth thread.stack

/-- The state in which thread `t` makes the inner call instead. -/
def Sys.inner (s : Sys N V S) (t : Fin N) (depth : Nat) : Sys N V S :=
  { s with threads := Function.update s.threads t ((s.threads t).inner depth) }

@[simp]
theorem length_innerStack (depth : Nat) (stack : List (Call S)) :
    (innerStack depth stack).length = stack.length := by
  induction stack with
  | nil => rfl
  | cons call below ih => simp [innerStack, ih]

theorem innerStack_of_le {depth : Nat} {stack : List (Call S)}
    (below : stack.length ≤ depth) : innerStack depth stack = stack := by
  induction stack with
  | nil => rfl
  | cons call rest ih =>
      rw [List.length_cons] at below
      rw [innerStack, if_neg (by omega), ih (by omega)]

@[simp]
theorem UniqueCall.inner_ne_unwrapOrClone {call : UniqueCall} :
    call.inner = .unwrapOrClone ↔ call = .unwrapOrClone := by
  cases call <;> simp [UniqueCall.inner]

/-! ## What the replacement does not change -/

@[simp]
theorem Call.source?_inner (call : Call S) : call.inner.source? = call.source? := by
  cases call <;> rfl

@[simp]
theorem Op.source?_inner (op : Op V S) : op.inner.source? = op.source? := by
  cases op <;> rfl

theorem any_innerStack (depth root : Nat) (stack : List (Call S)) :
    ((innerStack depth stack).any fun call => call.source?.any (·.root = root)) =
      stack.any fun call => call.source?.any (·.root = root) := by
  induction stack with
  | nil => rfl
  | cons call below ih =>
      rw [innerStack, List.any_cons, List.any_cons, ih]
      split <;> simp

@[simp]
theorem Thread.borrows_inner (depth root : Nat) (thread : Thread V S) :
    (thread.inner depth).borrows root = thread.borrows root := by
  unfold Thread.borrows
  simp only [Thread.inner, any_innerStack]
  split <;> simp

/-- A callback stays where it is. -/
theorem callback_innerStack {depth i : Nat} {stack : List (Call S)} {source : Borrow}
    {transient : RefKind S} :
    (innerStack depth stack)[i]? = some (.callback source transient) ↔
      stack[i]? = some (.callback source transient) := by
  induction stack generalizing i with
  | nil => simp [innerStack]
  | cons call below ih =>
      cases i with
      | zero =>
          simp only [innerStack, List.getElem?_cons_zero, Option.some.injEq]
          split
          · cases call <;> simp [Call.inner]
          · rfl
      | succ i => simpa [innerStack] using ih

namespace Sys

variable {s next : Sys N V S} {t u : Fin N} {word : MachineWord} {depth : Nat}

theorem threads_inner (s : Sys N V S) (t : Fin N) (depth : Nat) (u : Fin N) :
    (s.inner t depth).threads u =
      if u = t then (s.threads u).inner depth else s.threads u := by
  unfold inner
  by_cases here : u = t
  · subst here
    simp
  · simp [here]

@[simp]
theorem view_inner (s : Sys N V S) (t : Fin N) (depth : Nat) (source : Source N) :
    (s.inner t depth).view source = s.view source := by
  cases source with
  | handle | borrow => rfl
  | transient owner i =>
      simp only [view, threads_inner]
      by_cases here : owner = t
      · simp only [if_pos here, Thread.inner]
        cases found : (s.threads owner).stack[i]? with
        | none =>
            have missing : (innerStack depth (s.threads owner).stack)[i]? = none := by
              simpa using found
            rw [missing]
        | some call =>
            cases call with
            | callback source transient => rw [callback_innerStack.mpr found]
            | valueClone call ptr =>
                split
                · next other => simp [callback_innerStack.mp other] at found
                · rfl
      · simp only [if_neg here]

@[simp]
theorem borrowed_inner (s : Sys N V S) (t : Fin N) (depth key : Nat) :
    (s.inner t depth).borrowed key = s.borrowed key := by
  have same (u : Fin N) : ((s.inner t depth).threads u).borrows key =
      (s.threads u).borrows key := by
    rw [threads_inner]
    split <;> simp
  unfold borrowed
  simp only [same]
  rfl

@[simp]
theorem free_inner (s : Sys N V S) (t : Fin N) (depth key : Nat) :
    (s.inner t depth).free key = s.free key := by
  unfold free
  rw [borrowed_inner]
  rfl

/-! ## Steps of user code -/

/-- The thread `u` as it is when the call of thread `t` is replaced. -/
def innerOf (t u : Fin N) (depth : Nat) (thread : Thread V S) : Thread V S :=
  if u = t then thread.inner depth else thread

theorem inner_update (threads : Fin N → Thread V S) (t u : Fin N) (depth : Nat)
    (thread : Thread V S) :
    Function.update (Function.update threads u thread) t
        ((Function.update threads u thread t).inner depth) =
      Function.update (Function.update threads t ((threads t).inner depth)) u
        (innerOf t u depth thread) := by
  by_cases here : u = t
  · subst here
    simp [innerOf]
  · rw [Function.update_of_ne (Ne.symm here), Function.update_comm here, innerOf,
      if_neg here]

/-- The operation of thread `u` is replaced only if it belongs to the call. -/
theorem innerOf_op (t u : Fin N) (depth : Nat) (op : Op V S) (stack : List (Call S)) :
    innerOf t u depth ⟨op, stack⟩ =
      ⟨if u = t ∧ stack.length = depth then op.inner else op,
        if u = t then innerStack depth stack else stack⟩ := by
  unfold innerOf Thread.inner
  by_cases here : u = t <;> simp [here]

theorem Called.with_threads {act : Act N V S} {threads : Fin N → Thread V S}
    (called : Called word s t act next) (same : next.threads = threads) :
    Called word s t act { next with threads := threads } := by
  subst same
  exact called

theorem setOp_inner (s : Sys N V S) (t u : Fin N) (depth : Nat) (op : Op V S) :
    (({ s with threads := s.setOp u op }).inner t depth).threads =
      (s.inner t depth).setOp u
        (if u = t ∧ (s.threads u).stack.length = depth then op.inner else op) := by
  simp only [Sys.inner, setOp, inner_update]
  congr 1
  rw [innerOf_op]
  by_cases here : u = t
  · subst here
    simp [Thread.inner]
  · simp [here]

/-- The stack of thread `u` above which the replaced call may lie. -/
def innerStackOf (t u : Fin N) (depth : Nat) (stack : List (Call S)) : List (Call S) :=
  if u = t then innerStack depth stack else stack

theorem stack_inner (s : Sys N V S) (t u : Fin N) (depth : Nat) :
    ((s.inner t depth).threads u).stack = innerStackOf t u depth (s.threads u).stack := by
  rw [threads_inner]
  unfold innerStackOf Thread.inner
  split <;> rfl

theorem innerStackOf_cons (t u : Fin N) (depth : Nat) (frame : Call S)
    (stack : List (Call S)) : innerStackOf t u depth (frame :: stack) =
      (if u = t ∧ stack.length = depth then frame.inner else frame) ::
        innerStackOf t u depth stack := by
  unfold innerStackOf
  by_cases here : u = t <;> simp [here, innerStack]

/-- The innermost frame of a thread, replaced if it is the call. -/
theorem stack_inner_of_cons (t : Fin N) (depth : Nat) {frame : Call S}
    {stack : List (Call S)} (suspended : (s.threads u).stack = frame :: stack) :
    ((s.inner t depth).threads u).stack =
      (if u = t ∧ stack.length = depth then frame.inner else frame) ::
        innerStackOf t u depth stack := by
  rw [stack_inner, suspended, innerStackOf_cons]

theorem stack_inner_of_valueClone (t : Fin N) (depth : Nat) {call : UniqueCall}
    {ptr : Pointer S} {stack : List (Call S)}
    (suspended : (s.threads u).stack = .valueClone call ptr :: stack) :
    ((s.inner t depth).threads u).stack =
      .valueClone (if u = t ∧ stack.length = depth then call.inner else call) ptr ::
        innerStackOf t u depth stack := by
  rw [stack_inner_of_cons t depth suspended]
  split <;> rfl

theorem update_inner (s : Sys N V S) (t u : Fin N) (depth : Nat) (op : Op V S)
    (stack : List (Call S)) :
    Function.update (s.inner t depth).threads u
        ⟨if u = t ∧ stack.length = depth then op.inner else op,
          innerStackOf t u depth stack⟩ =
      (({ s with threads := Function.update s.threads u ⟨op, stack⟩ }).inner t depth).threads := by
  simp only [Sys.inner, inner_update, innerOf_op, innerStackOf]

/-- The thread goes on with an operation that the replacement leaves alone. -/
theorem update_inner_of_fixed (s : Sys N V S) (t u : Fin N) (depth : Nat) {op : Op V S}
    (fixed : op.inner = op) (stack : List (Call S)) :
    Function.update (s.inner t depth).threads u ⟨op, innerStackOf t u depth stack⟩ =
      (({ s with threads := Function.update s.threads u ⟨op, stack⟩ }).inner t depth).threads := by
  have updated := update_inner s t u depth op stack
  rwa [fixed, ite_self] at updated

/-- The innermost frame, if the replacement leaves it alone. -/
theorem stack_inner_of_fixed (t : Fin N) (depth : Nat) {frame : Call S}
    {stack : List (Call S)} (suspended : (s.threads u).stack = frame :: stack)
    (fixed : frame.inner = frame) :
    ((s.inner t depth).threads u).stack = frame :: innerStackOf t u depth stack := by
  rw [stack_inner_of_cons t depth suspended, fixed, ite_self]

/-- User code steps in the same way beside the replaced call. -/
theorem Called.inner {act : Act N V S} (called : Called word s u act next)
    (deep : u = t → depth < (s.threads u).stack.length) (keeps : s.Keeps (u, act)) :
    Called word (s.inner t depth) u act (next.inner t depth) := by
  have outside (op : Op V S) :
      (if u = t ∧ (s.threads u).stack.length = depth then op.inner else op) = op := by
    refine if_neg fun both => ?_
    have further := deep both.1
    omega
  have starts (op : Op V S) : (s.inner t depth).setOp u op =
      (({ s with threads := s.setOp u op }).inner t depth).threads := by
    rw [setOp_inner, outside]
  cases called with
  | new data strategy => exact .new data strategy
  | newUnique data strategy => exact .newUnique data strategy
  | borrow viewed => exact .borrow ((view_inner s t depth _).trans viewed)
  | endBorrow key => exact .endBorrow key
  | read viewed read => exact .read ((view_inner s t depth _).trans viewed) read
  | count viewed load => exact .count ((view_inner s t depth _).trans viewed) load
  | clone viewed cloned =>
      exact (Called.clone ((view_inner s t depth _).trans viewed) cloned).with_threads
        (starts _)
  | cloneMany viewed updated =>
      exact .cloneMany ((view_inner s t depth _).trans viewed) updated
  | nextNone found spent => exact .nextNone found spent
  | next found left => exact .next found left
  | cloneIter found => exact .cloneIter found
  | dropSpentIter found spent => exact .dropSpentIter found spent
  | dropIter found left updated => exact .dropIter found left updated
  | forgetIter found => exact .forgetIter found
  | @enter source call borrow kind transient viewed entered =>
      refine (Called.enter ((view_inner s t depth _).trans viewed) entered).with_threads ?_
      have pushed := update_inner_of_fixed s t u depth (rfl : (Op.idle : Op V S).inner = .idle)
        (.callback borrow transient :: (s.threads u).stack)
      rw [innerStackOf_cons, ← stack_inner] at pushed
      simp only [Call.inner, ite_self] at pushed
      exact pushed
  | @leave source transient stack suspended =>
      have frame := stack_inner_of_fixed t depth suspended rfl
      exact (Called.leave frame).with_threads (update_inner_of_fixed s t u depth rfl stack)
  | @unwindCallback source transient stack suspended =>
      have frame := stack_inner_of_fixed t depth suspended rfl
      exact (Called.unwindCallback frame).with_threads
        (update_inner_of_fixed s t u depth rfl stack)
  | @unwindMake call ptr stack suspended make =>
      have frame := stack_inner_of_fixed t depth suspended (by
        rcases make with rfl | rfl <;> rfl)
      exact (Called.unwindMake frame make).with_threads
        (update_inner_of_fixed s t u depth rfl stack)
  | unwindOffsetMakeMut suspended =>
      simp [Keeps, unwindsOffsetMakeMut, suspended] at keeps
  | @unwindUnwrapOrClone ptr stack suspended =>
      have frame := stack_inner_of_fixed t depth suspended rfl
      exact (Called.unwindUnwrapOrClone frame).with_threads
        (update_inner_of_fixed s t u depth rfl stack)
  | convert freed applied => exact .convert ((free_inner s t depth _).trans freed) applied
  | drop freed form =>
      exact (Called.drop ((free_inner s t depth _).trans freed) form).with_threads (starts _)
  | forget freed => exact .forget ((free_inner s t depth _).trans freed)
  | unique freed form load =>
      exact (Called.unique ((free_inner s t depth _).trans freed) form load).with_threads
        (starts _)
  | intoInner freed form =>
      exact (Called.intoInner ((free_inner s t depth _).trans freed) form).with_threads
        (starts _)
  | readMut found sole read => exact .readMut found sole read
  | write found sole written => exact .write found sole written
  | endGrant found lent => exact .endGrant found lent
  | readClone suspended read =>
      exact .readClone (stack_inner_of_valueClone t depth suspended) read
  | @unwrappedClone data ptr stack suspended =>
      have frame := stack_inner_of_fixed t depth suspended rfl
      exact (Called.unwrappedClone frame).with_threads
        (update_inner_of_fixed s t u depth rfl stack)
  | @copyMade data call ptr stack suspended other =>
      have frame := stack_inner_of_valueClone t depth suspended
      have other' : (if u = t ∧ stack.length = depth then call.inner else call) ≠
          .unwrapOrClone := by
        split
        · simpa using other
        · exact other
      refine (Called.copyMade frame other').with_threads ?_
      have popped := update_inner s t u depth
        (.dropping ptr (.grant call { ptr with p := s.heap.length })) stack
      refine Eq.trans ?_ popped
      split <;> rfl

/-! ## Stages of a call -/

/-- Whether the operation of thread `u` belongs to the replaced call. -/
abbrev Mine (s : Sys N V S) (t u : Fin N) (depth : Nat) : Prop :=
  u = t ∧ (s.threads u).stack.length = depth

theorem op_inner (s : Sys N V S) (t u : Fin N) (depth : Nat) :
    ((s.inner t depth).threads u).op =
      if s.Mine t u depth then (s.threads u).op.inner else (s.threads u).op := by
  rw [threads_inner]
  unfold Thread.inner
  by_cases here : u = t <;> simp [here, Mine]

/-- A step to an operation that the replacement leaves alone. -/
theorem setOp_inner_of_fixed (s : Sys N V S) (t u : Fin N) (depth : Nat) (op : Op V S)
    (fixed : op.inner = op) : (s.inner t depth).setOp u op =
      (({ s with threads := s.setOp u op }).inner t depth).threads := by
  rw [setOp_inner, fixed, ite_self]

theorem give_inner (s : Sys N V S) (t u : Fin N) (depth : Nat) (hd : Handle S)
    (answer : Answer V) :
    (s.inner t depth).give u hd answer = (s.give u hd answer).inner t depth :=
  congrArg (fun threads => ({ s with
      handles := s.handles.insert hd
      threads := threads
      log := s.log ++ [.returned u answer] } : Sys N V S))
    (setOp_inner_of_fixed s t u depth .idle rfl)

theorem grant_inner {call : UniqueCall} {ptr : Pointer S}
    (granted : s.grant u call ptr = .ok next) :
    (s.inner t depth).grant u call ptr = .ok (next.inner t depth) := by
  cases call with
  | getMut | makeMut | offsetMakeMut =>
      obtain rfl := Except.ok.inj granted
      exact congrArg Except.ok (give_inner s t u depth _ _)
  | getUnique | tryAsUnique | mustBeUnique | makeUnique | tryUnique =>
      obtain ⟨_, unique, result⟩ := bind_eq_ok.mp granted
      obtain rfl := Except.ok.inj result
      exact bind_eq_ok.mpr ⟨_, unique, congrArg Except.ok (give_inner s t u depth _ _)⟩
  | tryUnwrap | unwrapOrClone =>
      obtain ⟨_, unique, result⟩ := bind_eq_ok.mp granted
      obtain rfl := Except.ok.inj result
      refine bind_eq_ok.mpr ⟨_, unique, congrArg Except.ok ?_⟩
      exact congrArg (fun threads => ({ s with threads := threads } : Sys N V S))
        (setOp_inner_of_fixed s t u depth (.moving ptr) rfl)

theorem decline_of_clones {call : UniqueCall} (s : Sys N V S) (u : Fin N) (ptr : Pointer S)
    (clones : call = .unwrapOrClone ∨ call.copies = true) :
    s.decline u call ptr = .ok { s with
      threads := Function.update s.threads u
        ⟨.idle, .valueClone call ptr :: (s.threads u).stack⟩ } := by
  cases call with
  | unwrapOrClone | makeMut | makeUnique | offsetMakeMut => rfl
  | _ => simp [UniqueCall.copies] at clones

theorem push_inner (s : Sys N V S) (t u : Fin N) (depth : Nat) (call : UniqueCall)
    (ptr : Pointer S) :
    Function.update (s.inner t depth).threads u
        ⟨.idle, .valueClone (if s.Mine t u depth then call.inner else call) ptr ::
          ((s.inner t depth).threads u).stack⟩ =
      (({ s with
        threads := Function.update s.threads u
          ⟨.idle, .valueClone call ptr :: (s.threads u).stack⟩ }).inner t depth).threads := by
  have pushed := update_inner_of_fixed s t u depth (rfl : (Op.idle : Op V S).inner = .idle)
    (.valueClone call ptr :: (s.threads u).stack)
  rw [innerStackOf_cons, ← stack_inner] at pushed
  simp only [Call.inner] at pushed
  by_cases mine : s.Mine t u depth
  · rwa [if_pos mine] at pushed ⊢
  · rwa [if_neg mine] at pushed ⊢

theorem decline_inner {call : UniqueCall} {ptr : Pointer S}
    (declined : s.decline u call ptr = .ok next) :
    (s.inner t depth).decline u (if s.Mine t u depth then call.inner else call) ptr =
      .ok (next.inner t depth) := by
  by_cases clones : call = .unwrapOrClone ∨ call.copies = true
  · rw [decline_of_clones s u ptr clones] at declined
    obtain rfl := Except.ok.inj declined
    have clones' : (if s.Mine t u depth then call.inner else call) = .unwrapOrClone ∨
        (if s.Mine t u depth then call.inner else call).copies = true := by
      split
      · cases call <;> simp [UniqueCall.inner, UniqueCall.copies] at clones ⊢
      · exact clones
    rw [decline_of_clones _ u ptr clones']
    exact congrArg (fun threads => Except.ok ({ s with threads := threads } : Sys N V S))
      (push_inner s t u depth call ptr)
  · have gives (answer : Answer V) :
        (s.inner t depth).give u (ptr.handle call.form) answer =
          (s.give u (ptr.handle call.form) answer).inner t depth :=
      give_inner s t u depth _ _
    cases call with
    | getMut | getUnique | tryAsUnique | tryUnique | tryUnwrap =>
        obtain rfl := Except.ok.inj declined
        simp only [UniqueCall.inner, ite_self]
        exact congrArg Except.ok (gives _)
    | mustBeUnique =>
        obtain ⟨copies, load, result⟩ := bind_eq_ok.mp declined
        obtain rfl := Except.ok.inj result
        simp only [UniqueCall.inner, ite_self]
        exact bind_eq_ok.mpr ⟨copies, load, congrArg Except.ok (gives _)⟩
    | unwrapOrClone | makeMut | makeUnique | offsetMakeMut =>
        simp [UniqueCall.copies] at clones

/-- The end of a destructor, if it does not end the replaced call. -/
theorem finish_inner {rest : Rest V S} (finished : s.finish u rest = .ok next) :
    (s.inner t depth).finish u rest = .ok (next.inner t depth) := by
  cases rest with
  | grant call ptr => exact grant_inner finished
  | done =>
      obtain rfl := Except.ok.inj finished
      exact congrArg (fun threads => Except.ok ({ s with threads := threads } : Sys N V S))
        (setOp_inner_of_fixed s t u depth .idle rfl)
  | value data =>
      obtain rfl := Except.ok.inj finished
      exact congrArg (fun threads => Except.ok ({ s with
          threads := threads
          log := s.log ++ [.returned u (.value data)] } : Sys N V S))
        (setOp_inner_of_fixed s t u depth .idle rfl)
  | unwind =>
      obtain rfl := Except.ok.inj finished
      exact congrArg (fun threads => Except.ok ({ s with
          threads := threads
          log := s.log ++ [.returned u .unwound] } : Sys N V S))
        (setOp_inner_of_fixed s t u depth .idle rfl)

/-- The step does not end the replaced call. -/
def Continues (next : Sys N V S) (t : Fin N) (depth : Nat) : Prop :=
  (next.threads t).stack.length = depth → (next.threads t).op ≠ .idle

/-- A reference is granted at the end of a call only. -/
theorem fixed_of_continues {call : UniqueCall} {ptr : Pointer S}
    (granted : s.grant u call ptr = .ok next) (continues : next.Continues t depth)
    (mine : s.Mine t u depth) : call.inner = call := by
  cases call with
  | offsetMakeMut =>
      obtain rfl := Except.ok.inj granted
      obtain ⟨rfl, level⟩ := mine
      exact absurd (by simp [give, setOp]) (continues (by simpa [give, setOp] using level))
  | _ => rfl

theorem Advanced.with_threads {threads : Fin N → Thread V S}
    (advanced : Advanced word s t next) (same : next.threads = threads) :
    Advanced word s t { next with threads := threads } := by
  subst same
  exact advanced

theorem rest_of_continues {rest : Rest V S} (finished : s.finish u rest = .ok next)
    (continues : next.Continues t depth) :
    (if s.Mine t u depth then rest.inner else rest) = rest := by
  by_cases mine : s.Mine t u depth
  · rw [if_pos mine]
    cases rest with
    | grant call ptr =>
        have fixed := fixed_of_continues finished continues mine
        rw [Rest.inner, fixed]
    | done | value | unwind => rfl
  · rw [if_neg mine]

/-- The replaced call goes through the same stages, until it ends. -/
theorem Advanced.inner (advanced : Advanced word s u next)
    (continues : next.Continues t depth) :
    Advanced word (s.inner t depth) u (next.inner t depth) := by
  have op_eq := op_inner s t u depth
  cases advanced with
  | @fetchAdd source form strategy old heap op added =>
      simp only [op, Op.inner, ite_self] at op_eq
      exact (Advanced.fetchAdd op_eq added).with_threads
        (setOp_inner_of_fixed s t u depth (.cloned source form strategy old) rfl)
  | cloned op below =>
      simp only [op, Op.inner, ite_self] at op_eq
      exact (Advanced.cloned op_eq below).with_threads
        (setOp_inner_of_fixed s t u depth .idle rfl)
  | moved op unique read given =>
      simp only [op, Op.inner, ite_self] at op_eq
      exact (Advanced.moved op_eq unique read given).with_threads
        (setOp_inner_of_fixed s t u depth .idle rfl)
  | @grant call ptr _ op granted =>
      have same : (if s.Mine t u depth then call.inner else call) = call := by
        by_cases mine : s.Mine t u depth
        · rw [if_pos mine, fixed_of_continues granted continues mine]
        · rw [if_neg mine]
      have tested : ((s.inner t depth).threads u).op =
          .tested (if s.Mine t u depth then call.inner else call) ptr 1 := by
        rw [op_eq, op]
        split <;> rfl
      exact .grant (same ▸ tested) (grant_inner granted)
  | @decline call ptr loaded _ op shared declined =>
      have tested : ((s.inner t depth).threads u).op =
          .tested (if s.Mine t u depth then call.inner else call) ptr loaded := by
        rw [op_eq, op]
        split <;> rfl
      exact .decline tested shared (decline_inner declined)
  | @released ptr rest old heap _ op subtracted several finished =>
      have same : (if s.Mine t u depth then rest.inner else rest) = rest :=
        rest_of_continues (s := { s with heap := heap }) finished continues
      have dropping : ((s.inner t depth).threads u).op =
          .dropping ptr (if s.Mine t u depth then rest.inner else rest) := by
        rw [op_eq, op]
        split <;> rfl
      exact .released (same ▸ dropping) subtracted several
        (finish_inner (s := { s with heap := heap }) finished)
  | @finalized ptr rest heap _ op given finished =>
      let disposed : Sys N V S := { s with
        heap := heap
        log := s.log ++ [.life ptr.p (.finalize (u, ptr.strategy))] }
      have same : (if s.Mine t u depth then rest.inner else rest) = rest :=
        rest_of_continues (s := disposed) finished continues
      have dropping : ((s.inner t depth).threads u).op =
          .dropSlow ptr (if s.Mine t u depth then rest.inner else rest) := by
        rw [op_eq, op]
        split <;> rfl
      exact .finalized (same ▸ dropping) given (finish_inner (s := disposed) finished)
  | @lastReleased ptr rest heap op subtracted =>
      have dropping : ((s.inner t depth).threads u).op =
          .dropping ptr (if s.Mine t u depth then rest.inner else rest) := by
        rw [op_eq, op]
        split <;> rfl
      have after := setOp_inner s t u depth (.dropLoad ptr rest)
      refine (Advanced.lastReleased dropping subtracted).with_threads (Eq.trans ?_ after.symm)
      split <;> rfl
  | @acquired ptr rest count op load =>
      have dropping : ((s.inner t depth).threads u).op =
          .dropLoad ptr (if s.Mine t u depth then rest.inner else rest) := by
        rw [op_eq, op]
        split <;> rfl
      have after := setOp_inner s t u depth (.dropSlow ptr rest)
      refine (Advanced.acquired dropping load).with_threads (Eq.trans ?_ after.symm)
      split <;> rfl

/-! ## Steps of the program -/

theorem Op.inner_eq_idle {op : Op V S} : op.inner = .idle ↔ op = .idle := by
  cases op <;> simp [Op.inner]

theorem step_inner {move : Fin N × Act N V S} (keeps : s.Keeps move)
    (deep : (s.threads t).op = .idle → depth < (s.threads t).stack.length)
    (continues : next.Continues t depth) (stepped : step word s move = .ok next) :
    step word (s.inner t depth) move = .ok (next.inner t depth) := by
  obtain ⟨u, act⟩ := move
  rcases step_cases stepped with ⟨rfl, advanced⟩ | ⟨idle, called⟩
  · rw [step_advance]
    exact (advanced.inner continues).advance_eq
  · have asleep := op_inner s t u depth
    simp only [idle, Op.inner, ite_self] at asleep
    have starts : act ≠ .advance := by
      rintro rfl
      cases called
    rw [step_of_idle asleep starts]
    refine (called.inner (fun same => ?_) keeps).call_eq
    exact same ▸ deep (same ▸ idle)

theorem unwindsOffsetMakeMut_eq_false :
    s.unwindsOffsetMakeMut (u, .unwind) = false ↔
      ∀ ptr stack, (s.threads u).stack ≠ .valueClone .offsetMakeMut ptr :: stack := by
  unfold unwindsOffsetMakeMut
  simp only
  split
  · next suspended => simp [suspended]
  · next other =>
      simp only [ne_eq, true_iff]
      intro ptr stack suspended
      exact other ptr stack suspended

theorem inner_eq_offsetMakeMut {frame : Call S} {ptr : Pointer S}
    {mine : Prop} [Decidable mine]
    (top : (if mine then frame.inner else frame) = .valueClone .offsetMakeMut ptr) :
    frame = .valueClone .offsetMakeMut ptr := by
  split at top
  · cases frame with
    | callback => simp [Call.inner] at top
    | valueClone call other => cases call <;> simp [Call.inner, UniqueCall.inner] at top
  · exact top

theorem Keeps.inner {move : Fin N × Act N V S} (keeps : s.Keeps move) :
    (s.inner t depth).Keeps move := by
  refine ⟨keeps.1, ?_⟩
  obtain ⟨u, act⟩ := move
  cases act with
  | unwind =>
      have calm := unwindsOffsetMakeMut_eq_false.mp keeps.2
      rw [unwindsOffsetMakeMut_eq_false]
      intro ptr below suspended'
      cases suspended : (s.threads u).stack with
      | nil => simp [stack_inner, suspended, innerStackOf, innerStack] at suspended'
      | cons frame stack =>
          rw [stack_inner_of_cons t depth suspended] at suspended'
          obtain rfl := inner_eq_offsetMakeMut (List.cons.inj suspended').1
          exact calm ptr stack suspended
  | _ => rfl

end Sys

end BackdropArc
