import BackdropArc.Disposal

/-!
# Many clones at once

`Arc::clone_many` adds to the count once, hands out handles without touching
it, and gives back what is left when the iterator is dropped.  Taking `k` items
and dropping the iterator is the same as `k` calls of `clone`.  The two guards
are not the same: `clone` tests the count it found, `clone_many` the count it
is about to store, and it tests that even when it adds nothing.
-/

namespace BackdropArc

open GuardedRuns

variable {N : Nat} {V S : Type}

namespace Heap

variable {heap : Heap V S} {p count : Nat}

/-- Store another count in block `p`. -/
def recount (heap : Heap V S) (p count : Nat) : Heap V S :=
  heap.modify p fun block => { block with count := count }

theorem recount_of_access {block : Block V S} (accessed : heap.access p = .ok block)
    (count : Nat) : heap.recount p count = heap.set p { block with count := count } := by
  have found := (access_eq_ok.mp accessed).1
  apply List.ext_getElem?
  intro q
  unfold recount
  rw [List.getElem?_modify, List.getElem?_set]
  by_cases same : p = q
  · subst same
    obtain ⟨inside, here⟩ := List.getElem?_eq_some_iff.mp found
    simp [inside, here]
  · simp [same]

@[simp]
theorem recount_recount (heap : Heap V S) (p first second : Nat) :
    (heap.recount p first).recount p second = heap.recount p second := by
  unfold recount
  rw [List.modify_modify_eq]
  rfl

theorem recount_self (counted : heap.status p = .counted count) :
    heap.recount p count = heap := by
  obtain ⟨block, accessed, rfl⟩ := access_of_counted counted
  rw [recount_of_access accessed]
  obtain ⟨inside, here⟩ := List.getElem?_eq_some_iff.mp (access_eq_ok.mp accessed).1
  rw [← here, List.set_getElem_self]

theorem status_recount (counted : heap.status p = .counted count) (stored : Nat) :
    (heap.recount p stored).status p = .counted stored := by
  obtain ⟨block, accessed, _⟩ := access_of_counted counted
  have overwrites : heap.Overwrites (heap.recount p stored) p block
      { block with count := stored } := ⟨accessed, recount_of_access accessed stored⟩
  rw [(overwrites.counts rfl rfl).status_eq, if_pos rfl]

theorem fetchAdd_of_counted (word : MachineWord)
    (counted : heap.status p = .counted count) :
    heap.fetchAdd word p =
      .ok (count, heap.recount p ((count + 1) % word.modulus)) := by
  obtain ⟨block, accessed, rfl⟩ := access_of_counted counted
  rw [recount_of_access accessed]
  exact bind_eq_ok.mpr ⟨block, accessed, rfl⟩

theorem fetchUpdate_of_counted (update : Nat → Except Stop Nat)
    (counted : heap.status p = .counted count) :
    heap.fetchUpdate update p = heap.recount p <$> update count := by
  obtain ⟨block, accessed, rfl⟩ := access_of_counted counted
  unfold fetchUpdate
  rw [accessed]
  simp only [bind, Except.bind, pure, Except.pure]
  cases update block.count with
  | error stop => rfl
  | ok stored => exact congrArg Except.ok (recount_of_access accessed stored).symm

end Heap

/-- `Iterator::size_hint`. -/
def ArcCloneIter.sizeHint (iter : ArcCloneIter S) : Nat × Option Nat :=
  (iter.arcsLeft, some iter.arcsLeft)

/-- A call of `clone` from its start to its return. -/
def cloneCall (source : Source N) : List (Act N V S) :=
  [.clone source .clone, .advance, .advance]

/-- `copies` successive calls of `clone`. -/
def cloneCalls (source : Source N) (copies : Nat) : List (Act N V S) :=
  (List.replicate copies (cloneCall source)).flatten

namespace Sys

variable {s next : Sys N V S} {t : Fin N} {word : MachineWord} {source : Source N}
  {borrow : Borrow} {strategy : S} {count key : Nat}

/-- The listed steps of thread `t`, one after the other. -/
def actAll (word : MachineWord) (s : Sys N V S) (t : Fin N)
    (acts : List (Act N V S)) : Except Stop (Sys N V S) :=
  acts.foldlM (fun s act => step word s (t, act)) s

theorem actAll_cons (s : Sys N V S) (act : Act N V S) (acts : List (Act N V S)) :
    s.actAll word t (act :: acts) =
      step word s (t, act) >>= fun next => next.actAll word t acts :=
  List.foldlM_cons

theorem actAll_append (s : Sys N V S) (first second : List (Act N V S)) :
    s.actAll word t (first ++ second) =
      s.actAll word t first >>= fun middle => middle.actAll word t second :=
  List.foldlM_append

theorem actAll_single (s : Sys N V S) (act : Act N V S) :
    s.actAll word t [act] = step word s (t, act) := by
  rw [actAll_cons]
  cases step word s (t, act) <;> rfl

theorem actAll_append_eq_ok {first second : List (Act N V S)} {last : Sys N V S} :
    s.actAll word t (first ++ second) = .ok last ↔
      ∃ middle, s.actAll word t first = .ok middle ∧
        middle.actAll word t second = .ok last := by
  rw [actAll_append, bind_eq_ok]

/-- A reference stays usable while its handle, its borrow and the stacks of
suspended calls stay. -/
theorem view_kept {seen : Borrow × RefKind S}
    (handles : ∀ key hd, s.handles.get? key = some hd → next.handles.get? key = some hd)
    (borrows : next.borrows = s.borrows)
    (frames : ∀ x, (next.threads x).stack = (s.threads x).stack)
    (viewed : s.view source = some seen) : next.view source = some seen := by
  cases source with
  | handle key =>
      simp only [view, Option.bind_eq_bind, Option.bind_eq_some_iff] at viewed ⊢
      obtain ⟨hd, found, rest⟩ := viewed
      exact ⟨hd, handles key hd found, rest⟩
  | borrow key => rw [← viewed]; simp only [view, borrows]
  | transient owner depth => rw [← viewed]; simp only [view, frames]

/-! ## Calling `clone` again and again -/

/-- The state after clones of `ptr`: another count, and handles to the block. -/
def withClones (s : Sys N V S) (ptr : Pointer S) (count copies : Nat) : Sys N V S :=
  { s with
    heap := s.heap.recount ptr.p count
    handles := s.handles.insertMany (ptr.handle .arc) copies }

theorem withClones_succ (s : Sys N V S) (ptr : Pointer S) (first second copies : Nat) :
    (s.withClones ptr first 1).withClones ptr second copies =
      s.withClones ptr second (copies + 1) := by
  simp [withClones, SlotTable.insertMany_succ]

theorem view_withClones (ptr : Pointer S) (count : Nat) {seen : Borrow × RefKind S}
    (viewed : s.view source = some seen) :
    (s.withClones ptr count 1).view source = some seen := by
  refine view_kept (s := s) (fun key hd found => ?_) rfl (fun _ => rfl) viewed
  simp only [withClones, SlotTable.insertMany_succ, SlotTable.insertMany_zero]
  exact SlotTable.get?_insert_of_found found _

/-- The first two steps of `clone`: what happened to the count, before the
check of the old one. -/
theorem clone_starts (idle : (s.threads t).op = .idle)
    (viewed : s.view source = some (borrow, .arc strategy))
    (counted : s.heap.status borrow.p = .counted count) :
    s.actAll word t [.clone source .clone, .advance] = .ok { s with
      heap := s.heap.recount borrow.p ((count + 1) % word.modulus)
      threads := s.setOp t (.cloned borrow SharedForm.arc strategy count) } := by
  have started : step word s (t, .clone source .clone) =
      .ok { s with threads := s.setOp t (.cloning borrow SharedForm.arc strategy) } := by
    rw [step_of_idle idle (by simp)]
    exact call_eq_ok.mpr (.clone viewed rfl)
  rw [actAll_cons, bind_eq_ok]
  refine ⟨_, started, ?_⟩
  rw [actAll_single, step_advance]
  simp [Sys.advance, setOp, Heap.fetchAdd_of_counted word counted, bind, Except.bind,
    pure, Except.pure]

theorem cloneCall_spec (idle : (s.threads t).op = .idle)
    (viewed : s.view source = some (borrow, .arc strategy))
    (counted : s.heap.status borrow.p = .counted count)
    (below : count ≤ maxRefcount word) :
    s.actAll word t (cloneCall source) =
      .ok (s.withClones ⟨borrow.p, strategy⟩ (count + 1) 1) := by
  have width := word.modulus_eq
  have fits : (count + 1) % word.modulus = count + 1 :=
    Nat.mod_eq_of_lt (by unfold maxRefcount at below; omega)
  refine actAll_append_eq_ok.mpr ⟨_, clone_starts idle viewed counted, ?_⟩
  rw [actAll_single, step_advance, fits]
  simp only [Sys.advance, setOp, Function.update_self, demand, below, if_true, bind,
    Except.bind, pure, Except.pure, Function.update_idem, withClones,
    SlotTable.insertMany_succ, SlotTable.insertMany_zero]
  congr 2
  rw [← idle]
  exact Function.update_eq_self t s.threads

theorem cloneCall_aborts (idle : (s.threads t).op = .idle)
    (viewed : s.view source = some (borrow, .arc strategy))
    (counted : s.heap.status borrow.p = .counted count)
    (above : maxRefcount word < count) :
    s.actAll word t (cloneCall source) = .error .aborted := by
  have split : cloneCall source =
      [Act.clone source .clone, .advance] ++ [(.advance : Act N V S)] := rfl
  have past : ¬ count ≤ maxRefcount word := by omega
  rw [split, actAll_append, clone_starts idle viewed counted]
  simp only [bind, Except.bind, actAll_single, step_advance, Sys.advance, setOp,
    Function.update_self, demand, if_neg past]

theorem cloneCalls_succ (source : Source N) (copies : Nat) :
    (cloneCalls source (copies + 1) : List (Act N V S)) =
      cloneCall source ++ cloneCalls source copies := by
  simp [cloneCalls, List.replicate_succ]

/-- As long as each call finds a count that is not above the limit, successive
calls of `clone` add up. -/
theorem cloneCalls_spec (copies : Nat) (idle : (s.threads t).op = .idle)
    (viewed : s.view source = some (borrow, .arc strategy))
    (counted : s.heap.status borrow.p = .counted count)
    (below : copies = 0 ∨ count + copies ≤ maxRefcount word + 1) :
    s.actAll word t (cloneCalls source copies) =
      .ok (s.withClones ⟨borrow.p, strategy⟩ (count + copies) copies) := by
  induction copies generalizing s count with
  | zero =>
      have same := Heap.recount_self counted
      simp only [withClones, Nat.add_zero, same, SlotTable.insertMany_zero]
      rfl
  | succ copies ih =>
      have first : s.actAll word t (cloneCall source) =
          .ok (s.withClones ⟨borrow.p, strategy⟩ (count + 1) 1) :=
        cloneCall_spec idle viewed counted (by omega)
      rw [cloneCalls_succ]
      refine actAll_append_eq_ok.mpr ⟨_, first, ?_⟩
      rw [ih (s := s.withClones ⟨borrow.p, strategy⟩ (count + 1) 1) idle
        (view_withClones _ _ viewed) (Heap.status_recount counted _) (by omega),
        withClones_succ]
      congr 2
      omega

theorem cloneCalls_aborts (copies : Nat) (idle : (s.threads t).op = .idle)
    (viewed : s.view source = some (borrow, .arc strategy))
    (counted : s.heap.status borrow.p = .counted count) (some : copies ≠ 0)
    (above : maxRefcount word + 1 < count + copies) :
    s.actAll word t (cloneCalls source copies) = .error .aborted := by
  induction copies generalizing s count with
  | zero => exact absurd rfl some
  | succ copies ih =>
      rw [cloneCalls_succ, actAll_append]
      by_cases past : maxRefcount word < count
      · rw [cloneCall_aborts idle viewed counted past]
        rfl
      · rw [cloneCall_spec idle viewed counted (by omega)]
        exact ih (s := s.withClones ⟨borrow.p, strategy⟩ (count + 1) 1) idle
          (view_withClones _ _ viewed) (Heap.status_recount counted _) (by omega)
          (by omega)

/-! ## Cloning many times at once -/

theorem cloneManyUpdate_eq (word : MachineWord) (inc count : Nat) :
    cloneManyUpdate word inc count =
      if maxRefcount word < count + inc then .error .aborted else .ok (count + inc) := by
  have width := word.modulus_eq
  unfold cloneManyUpdate
  by_cases above : maxRefcount word < count + inc
  · simp [above]
  · rw [if_neg (by unfold maxRefcount at above; omega)]

theorem cloneMany_step (inc : Nat) (idle : (s.threads t).op = .idle)
    (viewed : s.view source = some (borrow, .arc strategy))
    (counted : s.heap.status borrow.p = .counted count) :
    step word s (t, .cloneMany source inc) =
      if maxRefcount word < count + inc then .error .aborted
      else .ok { s with
        heap := s.heap.recount borrow.p (count + inc)
        iters := s.iters.insert ⟨borrow, strategy, inc⟩ } := by
  rw [step_of_idle idle (by simp)]
  simp only [Sys.call, viewed, demandSome, bind, Except.bind,
    Heap.fetchUpdate_of_counted _ counted, cloneManyUpdate_eq]
  by_cases above : maxRefcount word < count + inc
  · simp only [above, if_true]
    rfl
  · simp only [above, if_false]
    rfl

/-- The state after items were taken from the iterator `iter` under `key`. -/
def withItems (s : Sys N V S) (key : Nat) (iter : ArcCloneIter S) (items : Nat) :
    Sys N V S :=
  { s with
    iters := s.iters.replace key { iter with arcsLeft := iter.arcsLeft - items }
    handles := s.handles.insertMany
      (Pointer.handle ⟨iter.orig.p, iter.strategy⟩ .arc) items }

theorem withItems_succ (s : Sys N V S) (key : Nat) (iter : ArcCloneIter S)
    (items : Nat) :
    (s.withItems key iter 1).withItems key
        { iter with arcsLeft := iter.arcsLeft - 1 } items =
      s.withItems key iter (items + 1) := by
  simp [withItems, SlotTable.insertMany_succ, Nat.sub_sub, Nat.add_comm]

theorem next_step {iter : ArcCloneIter S} (idle : (s.threads t).op = .idle)
    (found : s.iters.get? key = some iter) (left : iter.arcsLeft ≠ 0) :
    step word s (t, .next key) = .ok (s.withItems key iter 1) := by
  have taken : Called word s t (.next key) _ := .next found left
  rw [step_of_idle idle (by simp)]
  simpa [withItems, SlotTable.insertMany_succ] using call_eq_ok.mpr taken

/-- Taking items from an iterator that has enough of them left. -/
theorem takeItems (items : Nat) {iter : ArcCloneIter S}
    (idle : (s.threads t).op = .idle) (found : s.iters.get? key = some iter)
    (enough : items ≤ iter.arcsLeft) :
    s.actAll word t (List.replicate items (.next key)) =
      .ok (s.withItems key iter items) := by
  induction items generalizing s iter with
  | zero =>
      simp only [withItems, Nat.sub_zero, SlotTable.replace_self found,
        SlotTable.insertMany_zero]
      rfl
  | succ items ih =>
      have first : step word s (t, .next key) = .ok (s.withItems key iter 1) :=
        next_step idle found (by omega)
      have there : (s.withItems key iter 1).iters.get? key =
          some { iter with arcsLeft := iter.arcsLeft - 1 } := by
        simp [withItems, SlotTable.get?_replace found]
      have rest := ih (s := s.withItems key iter 1) idle there
        (Nat.le_sub_of_add_le enough)
      rw [withItems_succ] at rest
      rw [List.replicate_succ, actAll_cons, first]
      exact rest

theorem dropIter_step {iter : ArcCloneIter S} (idle : (s.threads t).op = .idle)
    (found : s.iters.get? key = some iter)
    (counted : s.heap.status iter.orig.p = .counted count)
    (enough : iter.arcsLeft ≤ count) :
    step word s (t, .dropIter key) = .ok { s with
      heap := s.heap.recount iter.orig.p (count - iter.arcsLeft)
      iters := s.iters.erase key } := by
  rw [step_of_idle idle (by simp)]
  by_cases spent : iter.arcsLeft = 0
  · rw [spent, Nat.sub_zero, Heap.recount_self counted]
    exact call_eq_ok.mpr (.dropSpentIter found spent)
  · refine call_eq_ok.mpr (.dropIter found spent ?_)
    rw [Heap.fetchUpdate_of_counted _ counted, dropIterUpdate, if_neg (by omega)]
    rfl

/-! ## An iterator with nothing left -/

/-- The iterator handed out under `key` has no items left, if it still exists. -/
structure Spent (s : Sys N V S) (key : Nat) : Prop where
  used : key < s.iters.nextKey
  none_left : ∀ iter, s.iters.get? key = some iter → iter.arcsLeft = 0

theorem Spent.inserted (spent : s.Spent key) (iter : ArcCloneIter S)
    (iters : next.iters = s.iters.insert iter) : next.Spent key := by
  have used := spent.used
  refine ⟨by simp only [iters, SlotTable.nextKey_insert]; omega, fun stored found => ?_⟩
  rw [iters, SlotTable.get?_insert, if_neg (by omega)] at found
  exact spent.none_left stored found

theorem Spent.erased {other : Nat} (spent : s.Spent key)
    (iters : next.iters = s.iters.erase other) : next.Spent key := by
  refine ⟨by simpa only [iters, SlotTable.nextKey_erase] using spent.used, ?_⟩
  intro stored found
  rw [iters] at found
  exact spent.none_left stored (SlotTable.get?_of_erase found)

theorem Spent.kept (spent : s.Spent key) (iters : next.iters = s.iters) :
    next.Spent key :=
  ⟨iters ▸ spent.used, iters ▸ spent.none_left⟩

theorem iters_of_advanced (advanced : Advanced word s t next) : next.iters = s.iters := by
  cases advanced with
  | fetchAdd | cloned | moved | lastReleased | acquired => rfl
  | grant _ granted => exact (settles_grant granted).iters
  | decline _ _ declined => exact (settles_decline declined).iters
  | released _ _ _ finished | finalized _ _ finished => exact (settles_finish finished).iters

/-- No step of any thread refills an iterator. -/
theorem Spent.stepped {move : Fin N × Act N V S} (spent : s.Spent key)
    (stepped : step word s move = .ok next) : next.Spent key := by
  rcases step_cases stepped with ⟨_, advanced⟩ | ⟨_, called⟩
  · exact spent.kept (iters_of_advanced advanced)
  · generalize act_eq : move.2 = act at called
    cases called with
    | cloneMany | cloneIter => exact spent.inserted _ rfl
    | dropSpentIter | dropIter | forgetIter => exact spent.erased rfl
    | @next other iter found left =>
        refine ⟨by simpa using spent.used, fun stored here => ?_⟩
        rw [SlotTable.get?_replace found] at here
        split at here
        · next same => exact absurd (spent.none_left iter (same ▸ found)) left
        · exact spent.none_left stored here
    | _ => exact spent.kept rfl

theorem next_of_spent {iter : ArcCloneIter S} (spent : s.Spent key)
    (idle : (s.threads t).op = .idle) (found : s.iters.get? key = some iter) :
    iter.sizeHint = (0, some 0) ∧
      step word s (t, .next key) =
        .ok { s with log := s.log ++ [.returned t .none] } := by
  have left := spent.none_left iter found
  refine ⟨by simp [ArcCloneIter.sizeHint, left], ?_⟩
  rw [step_of_idle idle (by simp)]
  exact call_eq_ok.mpr (.nextNone found left)

/-! ## Both ways of cloning -/

/-- What an iterator of `inc` clones leaves behind after `items` items were
taken and it was dropped: an empty slot, and otherwise the same as `items`
calls of `clone`. -/
theorem cloneMany_items {inc items : Nat} (idle : (s.threads t).op = .idle)
    (viewed : s.view source = some (borrow, .arc strategy))
    (counted : s.heap.status borrow.p = .counted count)
    (below : count + inc ≤ maxRefcount word) (enough : items ≤ inc) :
    ∃ taken, s.actAll word t
        (.cloneMany source inc :: List.replicate items (.next s.iters.nextKey)) =
          .ok taken ∧
      taken.iters.get? s.iters.nextKey = some ⟨borrow, strategy, inc - items⟩ ∧
      (taken.threads t).op = .idle ∧
      step word taken (t, .dropIter s.iters.nextKey) =
        .ok { s.withClones ⟨borrow.p, strategy⟩ (count + items) items with
          iters := (s.iters.insert ⟨borrow, strategy, inc⟩).erase s.iters.nextKey } := by
  have made : step word s (t, .cloneMany source inc) = _ :=
    cloneMany_step inc idle viewed counted
  rw [if_neg (by omega)] at made
  generalize made_eq : ({ s with
      heap := s.heap.recount borrow.p (count + inc)
      iters := s.iters.insert ⟨borrow, strategy, inc⟩ } : Sys N V S) = middle at made
  have found : middle.iters.get? s.iters.nextKey = some ⟨borrow, strategy, inc⟩ := by
    simp [← made_eq]
  have idleThere : (middle.threads t).op = .idle := by rw [← made_eq]; exact idle
  have added : middle.heap.status borrow.p = .counted (count + inc) := by
    rw [← made_eq]
    exact Heap.status_recount counted _
  have taken : middle.actAll word t (List.replicate items (.next s.iters.nextKey)) = _ :=
    takeItems items idleThere found enough
  have there : (middle.withItems s.iters.nextKey ⟨borrow, strategy, inc⟩ items).iters.get?
      s.iters.nextKey = some ⟨borrow, strategy, inc - items⟩ := by
    simp [withItems, SlotTable.get?_replace found]
  refine ⟨_, ?_, there, idleThere, ?_⟩
  · rw [actAll_cons, made]
    exact taken
  · have rest : count + inc - (inc - items) = count + items := by omega
    have dropped : step word
        (middle.withItems s.iters.nextKey ⟨borrow, strategy, inc⟩ items)
          (t, .dropIter s.iters.nextKey) = _ :=
      dropIter_step idleThere there added (by simp only; omega)
    rw [dropped]
    simp [withItems, withClones, ← made_eq, rest]

/-- For every state, every count and every `inc`: when the bulk step passes its
check, taking items and dropping the iterator leaves what as many calls of
`clone` leave, the size hint counts the items down, and an iterator with no
items left answers `None` in every later state.  The checks differ by one:
`clone_many` aborts if the new count is above the limit, a series of clones if
the last of them finds a count above the limit. -/
theorem clone_many_agrees (word : MachineWord) (idle : (s.threads t).op = .idle)
    (viewed : s.view source = some (borrow, .arc strategy))
    (counted : s.heap.status borrow.p = .counted count) (inc : Nat) :
    (s.actAll word t [.cloneMany source inc] = .error .aborted ↔
      maxRefcount word < count + inc) ∧
    (s.actAll word t (cloneCalls source inc) = .error .aborted ↔
      inc ≠ 0 ∧ maxRefcount word + 1 < count + inc) ∧
    (count + inc ≤ maxRefcount word → ∀ items ≤ inc, ∃ taken dropped clones iter,
      s.actAll word t
        (.cloneMany source inc :: List.replicate items (.next s.iters.nextKey)) =
          .ok taken ∧
      taken.iters.get? s.iters.nextKey = some iter ∧
      iter.sizeHint = (inc - items, some (inc - items)) ∧
      taken.actAll word t [.dropIter s.iters.nextKey] = .ok dropped ∧
      s.actAll word t (cloneCalls source items) = .ok clones ∧
      dropped = { clones with iters := dropped.iters } ∧
      (∀ key, dropped.iters.get? key = s.iters.get? key) ∧
      dropped.heap.status borrow.p = .counted (count + items) ∧
      dropped.handles =
        s.handles.insertMany (Pointer.handle ⟨borrow.p, strategy⟩ .arc) items ∧
      (items = inc → ∀ later, Reaches (step word) (fun _ _ => True) taken later →
        ∀ u iter, (later.threads u).op = .idle →
          later.iters.get? s.iters.nextKey = some iter →
            iter.sizeHint = (0, some 0) ∧
              step word later (u, .next s.iters.nextKey) =
                .ok { later with log := later.log ++ [.returned u .none] })) := by
  refine ⟨?_, ?_, fun below items enough => ?_⟩
  · rw [actAll_single, cloneMany_step inc idle viewed counted]
    by_cases above : maxRefcount word < count + inc <;> simp [above]
  · constructor
    · intro aborted
      by_contra passes
      rw [cloneCalls_spec inc idle viewed counted (by omega)] at aborted
      simp at aborted
    · rintro ⟨some, above⟩
      exact cloneCalls_aborts inc idle viewed counted some above
  · obtain ⟨taken, taking, found, idleThere, dropped⟩ :=
      cloneMany_items idle viewed counted below enough
    rw [← actAll_single] at dropped
    refine ⟨taken, _, _, _, taking, found, rfl, dropped,
      cloneCalls_spec items idle viewed counted (by omega), rfl, fun key => ?_,
      Heap.status_recount counted _, rfl, ?_⟩
    · simp only [SlotTable.get?_erase, SlotTable.get?_insert]
      by_cases fresh : key = s.iters.nextKey
      · rw [if_pos fresh, fresh, SlotTable.get?_nextKey]
      · rw [if_neg fresh, if_neg fresh]
    · rintro rfl later run u iter idleLater here
      have spent : taken.Spent s.iters.nextKey := by
        refine ⟨SlotTable.lt_nextKey found, fun stored same => ?_⟩
        obtain rfl : stored = _ := Option.some.inj (same.symm.trans found)
        exact Nat.sub_self _
      have still : later.Spent s.iters.nextKey :=
        run.invariant spent fun _ _ _ before _ stepped => Spent.stepped before stepped
      exact next_of_spent still idleLater here

/-- A state with one handle, whose block has two more leaked references. -/
def leaky : Sys 1 Nat Unit :=
  { start 1 Nat Unit with
    heap := [{ count := 3, data := 7, fate := .live, leaked := 2 }]
    handles := ⟨[some (Pointer.handle ⟨0, ()⟩ .arc)]⟩
    iters := ⟨[none]⟩ }

/-- Two of three clones are taken from an allocation with leaked handles. -/
theorem clone_many_agrees_witness :
    Reaches (step .wide) (fun _ _ => True) (start 1 Nat Unit) leaky ∧
      ∃ dropped clones : Sys 1 Nat Unit, dropped.heap.status 0 = .counted 5 ∧
        leaky.actAll .wide 0 (cloneCalls (.handle 0) 2) = .ok clones ∧
          dropped = { clones with iters := dropped.iters } := by
  refine ⟨reaches_of_follow
    [(0, .new 7 ()), (0, .cloneMany (.handle 0) 2), (0, .forgetIter 0)] rfl, ?_⟩
  have idle : (leaky.threads 0).op = .idle := rfl
  have viewed : leaky.view (.handle 0) = some (⟨0, 0⟩, .arc ()) := rfl
  have counted : leaky.heap.status 0 = .counted 3 := rfl
  obtain ⟨_, dropped, clones, _, _, _, _, _, cloned, same, _, after, _⟩ :=
    (clone_many_agrees .wide idle viewed counted 3).2.2 (by decide) 2 (by decide)
  exact ⟨dropped, clones, after, cloned, same⟩

/-- Leaked handles bring the count of one allocation to `isize::MAX`.  One more
reference is too many for `clone_many` and not for `clone`; and after that
clone even an empty `clone_many` aborts. -/
theorem clone_many_aborts_earlier :
    ∃ full beyond : Sys 1 Nat Unit,
      Reaches (step .wide) (fun _ _ => True) (start 1 Nat Unit) full ∧
        full.heap.status 0 = .counted (maxRefcount .wide) ∧
        full.actAll .wide 0 [.cloneMany (.handle 0) 1] = .error .aborted ∧
        full.actAll .wide 0 (cloneCalls (.handle 0) 1) = .ok beyond ∧
        beyond.actAll .wide 0 [.cloneMany (.handle 0) 0] = .error .aborted ∧
        beyond.actAll .wide 0 (cloneCalls (.handle 0) 0) = .ok beyond :=
  ⟨_, _,
    reaches_of_follow
      [(0, .new 7 ()), (0, .cloneMany (.handle 0) (2 ^ 63 - 2)), (0, .forgetIter 0)] rfl,
    rfl, rfl, rfl, rfl, rfl⟩

end Sys

end BackdropArc
