import BackdropArc.ArcFrames

/-!
# Steps of user code keep the accounts

Every action that user code can take between two calls of the crate, apart
from the two that duplicate ownership, preserves the invariant: cloning an
iterator that still holds references, and a panic of `T::clone` inside
`OffsetArc::make_mut`.
-/

namespace BackdropArc

open GuardedRuns CountedLifecycle

variable {N : Nat} {V S : Type}

namespace Sys

variable {s next : Sys N V S} {t : Fin N} {p : Nat}

@[simp]
theorem handle_refs (ptr : Pointer S) (form : Form) (p : Nat) :
    (ptr.handle form).refs p = ptr.refs p :=
  rfl

@[simp]
theorem op_refs_idle (p : Nat) : (.idle : Op V S).refs p = 0 :=
  rfl

/-- A step whose only effect on the blocks is one effect on block `q`. -/
theorem Sound.at_block {q : Nat} {after : Status} (sound : s.Sound)
    (others : Others s next t) (heap : s.heap.Changes next.heap q after)
    (effect : s.Effect next q)
    (elsewhere : ∀ p, p ≠ q → next.share t p = s.share t p ∧
      (∀ who, next.Finishing p who ↔ s.Finishing p who) ∧
      next.trace p = s.trace p)
    (rooted : ∀ borrow, next.Borrows borrow → next.Roots borrow)
    (claims : ∀ p, next.Claimed p → s.Claimed p ∨ next.owners p = 1) :
    next.Sound := by
  refine sound.preserved (fun p => ?_) rooted claims
  by_cases here : p = q
  · exact here ▸ effect
  · obtain ⟨share, finishing, trace⟩ := elsewhere p here
    exact Effect.elsewhere others heap here share finishing trace

theorem Sound.owners_of_absent (sound : s.Sound)
    (absent : s.heap.status p = .absent) : s.owners p = 0 := by
  obtain ⟨phase, accounts, _⟩ := sound.accounts p
  cases phase with
  | unborn => exact accounts.2.1
  | live | dying | gone => simp [Accounts, absent] at accounts

@[simp]
theorem event?_returned (p : Nat) (t : Fin N) (answer : Answer V) :
    (Entry.returned t answer : Entry N V S).event? p = none :=
  rfl

theorem Sound.logged (sound : s.Sound) (t : Fin N) (answer : Answer V) :
    ({ s with log := s.log ++ [.returned t answer] } : Sys N V S).Sound where
  accounts p := by
    obtain ⟨phase, accounts, life⟩ := sound.accounts p
    have trace := trace_append s [.returned t answer] p
    simp only [List.filterMap_cons, event?_returned, List.filterMap_nil,
      List.append_nil] at trace
    refine ⟨phase, ?_, trace ▸ life⟩
    cases phase <;> exact accounts
  rooted := sound.rooted
  sole := sound.sole

theorem Sound.rooted_insert (sound : s.Sound) {hd : Handle S}
    (handles : next.handles = s.handles.insert hd)
    (fewer : ∀ borrow, next.Borrows borrow → s.Borrows borrow) :
    ∀ borrow, next.Borrows borrow → next.Roots borrow :=
  sound.rooted_next (fun borrow alive => Or.inl (fewer borrow alive))
    fun _ _ _ found _ => by
      rw [handles]
      exact SlotTable.get?_insert_of_found found hd

/-- `Arc::new` and `UniqueArc::new`. -/
theorem Sound.new (sound : s.Sound) (t : Fin N) (data : V) (strategy : S)
    (form : Form) :
    ({ s with
      heap := s.heap.allocate data
      handles := s.handles.insert
        (Pointer.handle ⟨s.heap.length, strategy⟩ form) } : Sys N V S).Sound := by
  obtain ⟨absent, heap⟩ := Heap.allocate_spec s.heap data
  have unowned := sound.owners_of_absent absent
  generalize next_eq : ({ s with
      heap := s.heap.allocate data
      handles := s.handles.insert
        (Pointer.handle ⟨s.heap.length, strategy⟩ form) } : Sys N V S) = next
  have others : Others s next t := by
    subst next_eq
    exact fun _ _ => rfl
  have share (p : Nat) : next.share t p =
      s.share t p + Pointer.refs p ⟨s.heap.length, strategy⟩ := by
    subst next_eq
    simp only [Sys.share, liveHandles, arcsLeft, SlotTable.weigh_insert,
      handle_refs, heap.leakedAt_eq]
    omega
  have owners : next.owners s.heap.length = 1 := by
    have moved := owners_of_others others s.heap.length
    have one := share s.heap.length
    simp only [Pointer.refs, if_true] at one
    omega
  subst next_eq
  refine sound.at_block others heap ?_ ?_ ?_ ?_
  · refine .create absent ?_ (by omega) (fun _ => Iff.rfl) rfl
    rw [heap.status_eq, if_pos rfl]
  · intro p different
    refine ⟨?_, fun _ => Iff.rfl, rfl⟩
    rw [share p, Pointer.refs, if_neg (Ne.symm different), Nat.add_zero]
  · exact sound.rooted_insert rfl fun _ alive => alive
  · refine claims_of_others others ?_ fun p claim => Or.inl (Or.inr ⟨t, claim⟩)
    intro key hd found sole
    rcases SlotTable.get?_of_insert found with rfl | found
    · exact Or.inr (Or.inr owners)
    · exact Or.inl found

/-- `borrow_arc`, `ArcUnion::borrow`, and copies of an `ArcBorrow`. -/
theorem Sound.borrow (sound : s.Sound) (t : Fin N) {source : Source N}
    {borrow : Borrow} {kind : RefKind S}
    (viewed : s.view source = some (borrow, kind)) :
    ({ s with borrows := s.borrows.insert borrow } : Sys N V S).Sound := by
  refine sound.quiet (t := t) (fun _ _ => rfl) (fun _ => rfl) (fun _ => rfl) rfl
    (fun _ => rfl) ?_ (fun _ claimed => Or.inl claimed)
  refine sound.rooted_next ?_ fun _ _ _ found _ => found
  rintro other (⟨key, found⟩ | alive)
  · rcases SlotTable.get?_of_insert found with rfl | found
    · exact Or.inr (sound.roots_of_view viewed)
    · exact Or.inl (Or.inl ⟨key, found⟩)
  · exact Or.inl (Or.inr alive)

theorem Sound.endBorrow (sound : s.Sound) (t : Fin N) (key : Nat) :
    ({ s with borrows := s.borrows.erase key } : Sys N V S).Sound := by
  refine sound.quiet (t := t) (fun _ _ => rfl) (fun _ => rfl) (fun _ => rfl) rfl
    (fun _ => rfl) ?_ (fun _ claimed => Or.inl claimed)
  refine sound.rooted_next ?_ fun _ _ _ found _ => found
  rintro other (⟨slot, found⟩ | alive)
  · exact Or.inl (Or.inl ⟨slot, SlotTable.get?_of_erase found⟩)
  · exact Or.inl (Or.inr alive)

/-- A new stage of a call that user code starts on a shared reference. -/
theorem Sound.startShared (sound : s.Sound) {source : Source N}
    {borrow : Borrow} {kind : RefKind S} {thread : Thread V S}
    (viewed : s.view source = some (borrow, kind))
    (idle : (s.threads t).op = .idle)
    (holds : ∀ other, thread.Holds other →
      other = borrow ∨ (s.threads t).Holds other)
    (refs : ∀ p, thread.refs p = (s.threads t).refs p)
    (finishing : thread.op.finishing? = none)
    (claim : thread.op.claim? = none) :
    ({ s with
      threads := Function.update s.threads t thread } : Sys N V S).Sound := by
  refine sound.quiet (others_update rfl) (fun _ => rfl) ?_ ?_ (fun _ => rfl) ?_ ?_
  · intro p
    simp [share, liveHandles, arcsLeft, refs p]
  · have before : (s.threads t).op.finishing? = none := by rw [idle]; rfl
    simp [finishing, before]
  · refine sound.rooted_next ?_ fun _ _ _ found _ => found
    rintro other (stored | iterated | ⟨x, held⟩)
    · exact Or.inl (Or.inl stored)
    · exact Or.inl (Or.inr (Or.inl iterated))
    · by_cases here : x = t
      · subst here
        rcases holds other (by simpa using held) with rfl | before
        · exact Or.inr (sound.roots_of_view viewed)
        · exact Or.inl (Or.inr (Or.inr ⟨x, before⟩))
      · exact Or.inl (Or.inr (Or.inr ⟨x, by simpa [here] using held⟩))
  · refine claims_of_others (others_update rfl)
      (fun _ _ found _ => Or.inl found) fun p claimed => ?_
    simp [claim] at claimed

/-- `Arc::clone_many`: `ArcCloneIter::new` reserves all references at once. -/
theorem Sound.cloneMany (sound : s.Sound) (t : Fin N) {source : Source N}
    {borrow : Borrow} {kind : RefKind S} {word : MachineWord} {count : Nat}
    {heap : Heap V S} (viewed : s.view source = some (borrow, kind))
    (updated : s.heap.fetchUpdate (cloneManyUpdate word count) borrow.p = .ok heap)
    (strategy : S) :
    ({ s with
      heap := heap
      iters := s.iters.insert ⟨borrow, strategy, count⟩ } : Sys N V S).Sound := by
  obtain ⟨old, new, counted, computed, changes⟩ := Heap.fetchUpdate_spec updated
  have roots := sound.roots_of_view viewed
  obtain ⟨held, unclaimed⟩ := sound.shared_of_roots roots
  have sum : new = old + count := by
    unfold cloneManyUpdate at computed
    split at computed
    · simp at computed
    · split at computed
      · simp at computed
      · exact (Except.ok.inj computed).symm
  subst sum
  have others : Others s ({ s with
      heap := heap
      iters := s.iters.insert ⟨borrow, strategy, count⟩ } : Sys N V S) t :=
    fun _ _ => rfl
  have share (p : Nat) : ({ s with
      heap := heap
      iters := s.iters.insert ⟨borrow, strategy, count⟩ } : Sys N V S).share t p =
      s.share t p + if borrow.p = p then count else 0 := by
    simp only [Sys.share, liveHandles, arcsLeft, SlotTable.weigh_insert,
      ArcCloneIter.refs, changes.leakedAt_eq]
    omega
  refine sound.at_block others changes ?_ ?_ ?_ ?_
  · refine .acquire old count counted ?_ ?_ unclaimed held (fun _ => Iff.rfl) rfl
    · rw [changes.status_eq, if_pos rfl]
    · have moved := owners_of_others others borrow.p
      have more := share borrow.p
      rw [if_pos rfl] at more
      omega
  · intro p different
    refine ⟨?_, fun _ => Iff.rfl, rfl⟩
    rw [share p, if_neg (Ne.symm different), Nat.add_zero]
  · refine sound.rooted_next ?_ fun _ _ _ found _ => found
    rintro other (stored | ⟨key, iter, found, rfl⟩ | held)
    · exact Or.inl (Or.inl stored)
    · rcases SlotTable.get?_of_insert found with rfl | found
      · exact Or.inr roots
      · exact Or.inl (Or.inr (Or.inl ⟨key, iter, found, rfl⟩))
    · exact Or.inl (Or.inr (Or.inr held))
  · exact fun _ claimed => Or.inl claimed

/-- `ArcCloneIter::next` turns one reserved reference into a handle. -/
theorem Sound.iterNext (sound : s.Sound) (t : Fin N) {key : Nat}
    {iter : ArcCloneIter S} (found : s.iters.get? key = some iter)
    (left : iter.arcsLeft ≠ 0) :
    ({ s with
      iters := s.iters.replace key { iter with arcsLeft := iter.arcsLeft - 1 }
      handles := s.handles.insert
        (Pointer.handle ⟨iter.orig.p, iter.strategy⟩ .arc) } : Sys N V S).Sound := by
  refine sound.quiet (t := t) (fun _ _ => rfl) (fun _ => rfl) ?_ rfl
    (fun _ => rfl) ?_ ?_
  · intro p
    have taken := SlotTable.weigh_replace (ArcCloneIter.refs p) found
      { iter with arcsLeft := iter.arcsLeft - 1 }
    simp only [share, liveHandles, arcsLeft, SlotTable.weigh_insert, handle_refs]
    simp only [ArcCloneIter.refs, Pointer.refs] at taken ⊢
    by_cases here : iter.orig.p = p
    · simp only [here, if_true] at taken ⊢
      omega
    · simp only [here, if_false] at taken ⊢
      omega
  · refine sound.rooted_insert rfl ?_
    rintro other (stored | ⟨slot, new, here, rfl⟩ | held)
    · exact Or.inl stored
    · rw [SlotTable.get?_replace found] at here
      split at here
      · obtain rfl := Option.some.inj here
        exact Or.inr (Or.inl ⟨key, iter, found, rfl⟩)
      · exact Or.inr (Or.inl ⟨slot, new, here, rfl⟩)
    · exact Or.inr (Or.inr held)
  · refine claims_of_others (t := t) (fun _ _ => rfl) ?_
      fun p claim => Or.inl (Or.inr ⟨t, claim⟩)
    intro slot hd stored sole
    rcases SlotTable.get?_of_insert stored with rfl | stored
    · simp [Pointer.handle, Handle.sole] at sole
    · exact Or.inl stored

theorem borrows_of_iter_erased {heap : Heap V S} {key : Nat} {borrow : Borrow}
    (alive : ({ s with
      heap := heap
      iters := s.iters.erase key } : Sys N V S).Borrows borrow) :
    s.Borrows borrow := by
  rcases alive with stored | ⟨slot, iter, found, rfl⟩ | held
  · exact Or.inl stored
  · exact Or.inr (Or.inl ⟨slot, iter, SlotTable.get?_of_erase found, rfl⟩)
  · exact Or.inr (Or.inr held)

theorem Sound.dropEmptyIter (sound : s.Sound) (t : Fin N) {key : Nat}
    {iter : ArcCloneIter S} (found : s.iters.get? key = some iter)
    (spent : iter.arcsLeft = 0) :
    ({ s with iters := s.iters.erase key } : Sys N V S).Sound := by
  refine sound.quiet (t := t) (fun _ _ => rfl) (fun _ => rfl) ?_ rfl
    (fun _ => rfl) ?_ (fun _ claimed => Or.inl claimed)
  · intro p
    have taken := SlotTable.weigh_erase (ArcCloneIter.refs p) s.iters key
    rw [SlotTable.weighAt_of_found _ found, ArcCloneIter.refs, spent] at taken
    simp only [share, liveHandles, arcsLeft]
    split at taken <;> omega
  · exact sound.rooted_next
      (fun _ alive => Or.inl (borrows_of_iter_erased alive))
      fun _ _ _ here _ => here

/-- The references an iterator reserves are among the owners, besides the
handle it borrows. -/
theorem Sound.arcsLeft_lt_owners (sound : s.Sound) {key : Nat}
    {iter : ArcCloneIter S} (found : s.iters.get? key = some iter) :
    iter.arcsLeft < s.owners iter.orig.p := by
  obtain ⟨hd, stored, same, _⟩ :=
    sound.rooted iter.orig (Or.inr (Or.inl ⟨key, iter, found, rfl⟩))
  have reserved := SlotTable.le_weigh (ArcCloneIter.refs iter.orig.p) found
  have handle := SlotTable.le_weigh (Handle.refs iter.orig.p) stored
  rw [← same, handle_refs_self, same] at handle
  simp only [ArcCloneIter.refs, if_true] at reserved
  unfold owners liveHandles arcsLeft
  omega

/-- Dropping an iterator gives the remaining references back in one step. -/
theorem Sound.dropIter (sound : s.Sound) (t : Fin N) {key : Nat}
    {iter : ArcCloneIter S} {heap : Heap V S}
    (found : s.iters.get? key = some iter)
    (updated : s.heap.fetchUpdate (dropIterUpdate iter.arcsLeft) iter.orig.p =
      .ok heap) :
    ({ s with heap := heap, iters := s.iters.erase key } : Sys N V S).Sound := by
  obtain ⟨old, new, counted, computed, changes⟩ := Heap.fetchUpdate_spec updated
  obtain ⟨enough, difference⟩ : iter.arcsLeft ≤ old ∧ old - iter.arcsLeft = new := by
    unfold dropIterUpdate at computed
    split at computed
    · simp at computed
    · exact ⟨by omega, Except.ok.inj computed⟩
  have reserved := sound.arcsLeft_lt_owners found
  have same := sound.owners_of_counted counted
  have others : Others s
      ({ s with heap := heap, iters := s.iters.erase key } : Sys N V S) t :=
    fun _ _ => rfl
  have share (p : Nat) : (({ s with
      heap := heap
      iters := s.iters.erase key } : Sys N V S).share t p : Int) =
      s.share t p - iter.refs p := by
    have taken := SlotTable.weigh_erase (ArcCloneIter.refs p) s.iters key
    rw [SlotTable.weighAt_of_found _ found] at taken
    simp only [Sys.share, liveHandles, arcsLeft, changes.leakedAt_eq]
    omega
  refine sound.at_block others changes ?_ ?_ ?_ (fun _ claimed => Or.inl claimed)
  · refine .release new iter.arcsLeft ?_ ?_ (by omega) ?_ (fun _ => Iff.rfl) rfl
    · rw [counted, ← difference, Nat.sub_add_cancel enough]
    · rw [changes.status_eq, if_pos rfl]
    · have moved := owners_of_others others iter.orig.p
      have fewer := share iter.orig.p
      simp only [ArcCloneIter.refs, if_true] at fewer
      omega
  · intro p different
    refine ⟨?_, fun _ => Iff.rfl, rfl⟩
    have fewer := share p
    simp only [ArcCloneIter.refs, if_neg (Ne.symm different)] at fewer
    omega
  · exact sound.rooted_next
      (fun _ alive => Or.inl (borrows_of_iter_erased alive))
      fun _ _ _ here _ => here

/-- The derived `Clone` of an iterator that reserves nothing. -/
theorem Sound.cloneEmptyIter (sound : s.Sound) (t : Fin N) {key : Nat}
    {iter : ArcCloneIter S} (found : s.iters.get? key = some iter)
    (spent : iter.arcsLeft = 0) :
    ({ s with iters := s.iters.insert iter } : Sys N V S).Sound := by
  refine sound.quiet (t := t) (fun _ _ => rfl) (fun _ => rfl) ?_ rfl
    (fun _ => rfl) ?_ (fun _ claimed => Or.inl claimed)
  · intro p
    simp [share, liveHandles, arcsLeft, ArcCloneIter.refs, spent]
  · refine sound.rooted_next (fun borrow alive => Or.inl ?_) fun _ _ _ here _ => here
    rcases alive with stored | ⟨slot, other, here, rfl⟩ | held
    · exact Or.inl stored
    · rcases SlotTable.get?_of_insert here with rfl | here
      · exact Or.inr (Or.inl ⟨key, other, found, rfl⟩)
      · exact Or.inr (Or.inl ⟨slot, other, here, rfl⟩)
    · exact Or.inr (Or.inr held)

theorem Sound.not_absent_of_owned (sound : s.Sound) (owned : 0 < s.owners p) :
    s.heap.status p ≠ .absent := by
  rw [sound.counted_of_owned owned]
  simp

theorem Sound.forgetIter (sound : s.Sound) (t : Fin N) {key : Nat}
    {iter : ArcCloneIter S} (found : s.iters.get? key = some iter) :
    ({ s with
      heap := s.heap.leak iter.orig.p iter.arcsLeft
      iters := s.iters.erase key } : Sys N V S).Sound := by
  have present := sound.not_absent_of_owned
    (lt_of_le_of_lt (Nat.zero_le _) (sound.arcsLeft_lt_owners found))
  refine sound.quiet (t := t) (fun _ _ => rfl) (fun p => Heap.status_leak _ _ _ p)
    ?_ rfl (fun _ => rfl) ?_ (fun _ claimed => Or.inl claimed)
  · intro p
    have taken := SlotTable.weigh_erase (ArcCloneIter.refs p) s.iters key
    rw [SlotTable.weighAt_of_found _ found] at taken
    simp only [share, liveHandles, arcsLeft, Heap.leakedAt_leak present]
    simp only [ArcCloneIter.refs, eq_comm] at taken ⊢
    omega
  · exact sound.rooted_next
      (fun _ alive => Or.inl (borrows_of_iter_erased alive))
      fun _ _ _ here _ => here

theorem holds_of_popped {call : Call S} {stack : List (Call S)} {op : Op V S}
    (suspended : (s.threads t).stack = call :: stack)
    (source : op.source? = none) (borrow : Borrow)
    (held : (⟨op, stack⟩ : Thread V S).Holds borrow) :
    (s.threads t).Holds borrow := by
  rcases held with current | ⟨other, member, held⟩
  · simp [source] at current
  · exact Or.inr ⟨other, by simp [suspended, member], held⟩

/-- The callback of a `with_arc` returns or unwinds. -/
theorem Sound.leave (sound : s.Sound) {source : Borrow} {transient : RefKind S}
    {stack : List (Call S)} (idle : (s.threads t).op = .idle)
    (suspended : (s.threads t).stack = .callback source transient :: stack) :
    ({ s with
      threads := Function.update s.threads t ⟨.idle, stack⟩ } : Sys N V S).Sound := by
  refine sound.quiet (others_update rfl) (fun _ => rfl) ?_ ?_ (fun _ => rfl) ?_ ?_
  · intro p
    simp [share, liveHandles, arcsLeft, Thread.refs, idle, suspended, Call.refs]
  · simp [idle]
  · refine sound.rooted_of_others (others_update rfl) rfl rfl rfl fun borrow held => ?_
    exact holds_of_popped suspended rfl borrow (by simpa using held)
  · refine claims_of_others (others_update rfl)
      (fun _ _ found _ => Or.inl found) fun p claim => ?_
    simp [Op.claim?] at claim

theorem Conversion.apply_spec {conversion : Conversion S} {hd converted : Handle S}
    (applied : conversion.apply hd = some converted) :
    converted.p = hd.p ∧ converted.lent = hd.lent ∧
      converted.form ≠ .uniqueArc := by
  unfold Conversion.apply at applied
  split at applied <;> simp_all <;> subst converted <;> simp_all

/-- A handle is replaced by another one to the same block, which claims no more and
takes no borrow away. -/
theorem Sound.replaceHandle (sound : s.Sound) (t : Fin N) {key : Nat}
    {hd converted : Handle S} (found : s.handles.get? key = some hd)
    (same : converted.p = hd.p) (claims : converted.sole = true → hd.sole = true)
    (unrooted : ∀ borrow, s.Borrows borrow → borrow.root = key → hd.lendable = false) :
    ({ s with handles := s.handles.replace key converted } : Sys N V S).Sound := by
  refine sound.quiet (t := t) (fun _ _ => rfl) (fun _ => rfl) ?_ rfl
    (fun _ => rfl) ?_ ?_
  · intro p
    have swapped := SlotTable.weigh_replace (Handle.refs p) found converted
    simp only [Handle.refs, Pointer.refs, same] at swapped
    simp only [share, liveHandles, arcsLeft]
    omega
  · refine sound.rooted_next (fun _ alive => Or.inl alive)
      fun borrow other alive here lendable => ?_
    rw [SlotTable.get?_replace found]
    split
    · next root =>
        obtain rfl : hd = other := by simpa [root, found] using here
        simp [unrooted borrow alive root] at lendable
    · exact here
  · refine claims_of_others (t := t) (fun _ _ => rfl) ?_
      fun p claim => Or.inl (Or.inr ⟨t, claim⟩)
    intro slot other stored sole
    rw [SlotTable.get?_replace found] at stored
    split at stored
    · obtain rfl := Option.some.inj stored
      exact Or.inr (Or.inl (Or.inl ⟨key, hd, found, claims sole, same.symm⟩))
    · exact Or.inl stored

/-- A conversion between the handle types. -/
theorem Sound.convert (sound : s.Sound) (t : Fin N) {key : Nat}
    {hd converted : Handle S} {conversion : Conversion S}
    (freed : s.free key = .ok hd)
    (applied : conversion.apply hd = some converted) :
    ({ s with handles := s.handles.replace key converted } : Sys N V S).Sound := by
  obtain ⟨found, unlent, unborrowed⟩ := free_eq_ok.mp freed
  obtain ⟨same, lent, form⟩ := Conversion.apply_spec applied
  apply sound.replaceHandle t found same
  · intro sole
    simp [Handle.sole, lent, unlent, form] at sole
  · exact fun borrow alive root => absurd root (not_borrowed unborrowed alive)

/-- A call that consumes a handle or borrows it mutably moves it into its
frame. -/
theorem Sound.startOwned (sound : s.Sound) {key : Nat} {hd : Handle S}
    {op : Op V S} (freed : s.free key = .ok hd) (idle : (s.threads t).op = .idle)
    (refs : ∀ p, op.refs p = hd.refs p) (source : op.source? = none)
    (finishing : op.finishing? = none)
    (claim : ∀ p, op.claim? = some p → s.owners p = 1) :
    ({ s with
      handles := s.handles.erase key
      threads := s.setOp t op } : Sys N V S).Sound := by
  obtain ⟨found, unlent, unborrowed⟩ := free_eq_ok.mp freed
  have others : Others s ({ s with
      handles := s.handles.erase key
      threads := s.setOp t op } : Sys N V S) t := others_update rfl
  have share (p : Nat) : ({ s with
      handles := s.handles.erase key
      threads := s.setOp t op } : Sys N V S).share t p = s.share t p := by
    have taken := SlotTable.weigh_erase (Handle.refs p) s.handles key
    rw [SlotTable.weighAt_of_found _ found] at taken
    have moved := refs p
    simp only [Sys.share, liveHandles, arcsLeft, setOp, Function.update_self,
      Thread.refs, idle, op_refs_idle]
    omega
  have fewer (borrow : Borrow) (alive : ({ s with
      handles := s.handles.erase key
      threads := s.setOp t op } : Sys N V S).Borrows borrow) :
      s.Borrows borrow :=
    borrows_of_others alive others rfl rfl (holds_of_setOp rfl source borrow)
  refine sound.quiet others (fun _ => rfl) share ?_ (fun _ => rfl) ?_ ?_
  · have before : (s.threads t).op.finishing? = none := by rw [idle]; rfl
    simp [setOp, finishing, before]
  · refine sound.rooted_next (fun borrow alive => Or.inl (fewer borrow alive))
      fun borrow _ alive here _ => ?_
    rw [SlotTable.get?_erase,
      if_neg (not_borrowed unborrowed (fewer borrow alive)), here]
  · refine claims_of_others others ?_ fun p claims => Or.inr ?_
    · intro slot other stored sole
      exact Or.inl (SlotTable.get?_of_erase stored)
    · have single := claim p (by simpa [setOp] using claims)
      have moved := owners_of_others others p
      have same := share p
      omega

theorem Sound.forget (sound : s.Sound) (t : Fin N) {key : Nat} {hd : Handle S}
    (freed : s.free key = .ok hd) :
    ({ s with
      heap := s.heap.leak hd.p 1
      handles := s.handles.erase key } : Sys N V S).Sound := by
  obtain ⟨found, unlent, unborrowed⟩ := free_eq_ok.mp freed
  have present := sound.not_absent_of_owned (owned_of_stored found)
  refine sound.quiet (t := t) (fun _ _ => rfl) (fun p => Heap.status_leak _ _ _ p)
    ?_ rfl (fun _ => rfl) ?_ ?_
  · intro p
    have taken := SlotTable.weigh_erase (Handle.refs p) s.handles key
    rw [SlotTable.weighAt_of_found _ found] at taken
    simp only [share, liveHandles, arcsLeft, Heap.leakedAt_leak present]
    simp only [Handle.refs, Pointer.refs, eq_comm] at taken ⊢
    omega
  · refine sound.rooted_next (fun _ alive => Or.inl alive)
      fun borrow _ alive here _ => ?_
    rw [SlotTable.get?_erase, if_neg (not_borrowed unborrowed alive), here]
  · refine claims_of_others (t := t) (fun _ _ => rfl) ?_
      fun p claim => Or.inl (Or.inr ⟨t, claim⟩)
    intro slot other stored sole
    exact Or.inl (SlotTable.get?_of_erase stored)

theorem Sound.write (sound : s.Sound) (t : Fin N) {p : Nat} {data : V}
    {heap : Heap V S} (written : s.heap.write p data = .ok heap) :
    ({ s with heap := heap } : Sys N V S).Sound := by
  obtain ⟨old, counted, changes⟩ := Heap.write_spec written
  refine sound.quiet (t := t) (fun _ _ => rfl) (fun q => ?_) (fun q => ?_) rfl
    (fun _ => rfl) sound.rooted fun _ claimed => Or.inl claimed
  · rw [changes.status_eq]
    split
    · next here => rw [here, counted]
    · rfl
  · simp only [share, liveHandles, arcsLeft, changes.leakedAt_eq]

theorem Sound.endGrant (sound : s.Sound) (t : Fin N) {key : Nat} {hd : Handle S}
    (found : s.handles.get? key = some hd) (lent : hd.lent = true) :
    ({ s with
      handles := s.handles.replace key
        { hd with lent := false } } : Sys N V S).Sound := by
  apply sound.replaceHandle t found (rfl : ({ hd with lent := false } : Handle S).p = hd.p)
  · exact fun _ => by simp [Handle.sole, lent]
  · exact fun _ _ _ => by simp [Handle.lendable, lent]

theorem Sound.endClone (sound : s.Sound) {call : UniqueCall} {ptr : Pointer S}
    {stack : List (Call S)} {rest : Rest V S} (idle : (s.threads t).op = .idle)
    (suspended : (s.threads t).stack = .valueClone call ptr :: stack)
    (nothing : ∀ p, rest.refs p = 0) (claim : rest.claim? = none) :
    ({ s with
      threads := Function.update s.threads t
        ⟨.dropping ptr rest, stack⟩ } : Sys N V S).Sound := by
  refine sound.quiet (others_update rfl) (fun _ => rfl) ?_ ?_ (fun _ => rfl) ?_ ?_
  · intro p
    simp [share, liveHandles, arcsLeft, Thread.refs, idle, suspended, Call.refs,
      Op.refs, nothing]
  · simp [idle, Op.finishing?]
  · refine sound.rooted_of_others (others_update rfl) rfl rfl rfl fun borrow held => ?_
    exact holds_of_popped suspended rfl borrow (by simpa using held)
  · refine claims_of_others (others_update rfl)
      (fun _ _ found _ => Or.inl found) fun p claimed => ?_
    simp [Op.claim?, claim] at claimed

/-- A panic of `T::clone` inside `Arc::make_mut` or `Arc::make_unique` leaves
the handle as it was. -/
theorem Sound.unwindMake (sound : s.Sound) {call : UniqueCall} {ptr : Pointer S}
    {stack : List (Call S)} (idle : (s.threads t).op = .idle)
    (suspended : (s.threads t).stack = .valueClone call ptr :: stack)
    (form : Form) (shareable : form ≠ .uniqueArc) :
    ({ s with
      handles := s.handles.insert (ptr.handle form)
      threads := Function.update s.threads t ⟨.idle, stack⟩ } : Sys N V S).Sound := by
  refine sound.quiet (others_update rfl) (fun _ => rfl) ?_ ?_ (fun _ => rfl) ?_ ?_
  · intro p
    simp only [share, liveHandles, arcsLeft, Thread.refs, idle, suspended,
      Function.update_self, SlotTable.weigh_insert, handle_refs, List.map_cons,
      List.sum_cons, Call.refs, Op.refs]
    omega
  · simp [idle]
  · refine sound.rooted_insert rfl fun borrow alive => ?_
    refine borrows_of_others alive (others_update rfl) rfl rfl fun held => ?_
    exact holds_of_popped suspended rfl borrow (by simpa using held)
  · refine claims_of_others (others_update rfl) ?_ fun p claim => ?_
    · intro slot hd stored sole
      rcases SlotTable.get?_of_insert stored with rfl | stored
      · simp [Pointer.handle, Handle.sole, shareable] at sole
      · exact Or.inl stored
    · simp [Op.claim?] at claim

/-- `T::clone` returns inside a copy on write: `Arc::new` makes the block that
the handle will point to. -/
theorem Sound.copyMade (sound : s.Sound) {call : UniqueCall} {ptr : Pointer S}
    {stack : List (Call S)} (idle : (s.threads t).op = .idle)
    (suspended : (s.threads t).stack = .valueClone call ptr :: stack) (data : V) :
    ({ s with
      heap := s.heap.allocate data
      threads := Function.update s.threads t
        ⟨.dropping ptr (.grant call { ptr with p := s.heap.length }),
          stack⟩ } : Sys N V S).Sound := by
  obtain ⟨absent, heap⟩ := Heap.allocate_spec s.heap data
  have unowned := sound.owners_of_absent absent
  generalize next_eq : ({ s with
      heap := s.heap.allocate data
      threads := Function.update s.threads t
        ⟨.dropping ptr (.grant call { ptr with p := s.heap.length }),
          stack⟩ } : Sys N V S) = next
  have others : Others s next t := by
    subst next_eq
    exact others_update rfl
  have share (p : Nat) : next.share t p =
      s.share t p + Pointer.refs p ⟨s.heap.length, ptr.strategy⟩ := by
    subst next_eq
    simp only [Sys.share, liveHandles, arcsLeft, Thread.refs, idle, suspended,
      Function.update_self, List.map_cons, List.sum_cons, Call.refs, Op.refs,
      Rest.refs, heap.leakedAt_eq]
    omega
  have finishing (p : Nat) (who : Fin N × S) :
      next.Finishing p who ↔ s.Finishing p who := by
    apply finishing_of_others others
    subst next_eq
    simp [idle, Op.finishing?]
  have owners : next.owners s.heap.length = 1 := by
    have moved := owners_of_others others s.heap.length
    have one := share s.heap.length
    simp only [Pointer.refs, if_true] at one
    omega
  subst next_eq
  refine sound.at_block others heap ?_ ?_ ?_ ?_
  · refine .create absent ?_ (by omega) (finishing _) rfl
    rw [heap.status_eq, if_pos rfl]
  · intro p different
    refine ⟨?_, finishing p, rfl⟩
    rw [share p, Pointer.refs, if_neg (Ne.symm different), Nat.add_zero]
  · refine sound.rooted_of_others others rfl rfl rfl fun borrow held => ?_
    exact holds_of_popped suspended rfl borrow (by simpa using held)
  · refine claims_of_others others (fun _ _ found _ => Or.inl found)
      fun p claim => Or.inr ?_
    obtain rfl : s.heap.length = p := by simpa [Op.claim?, Rest.claim?] using claim
    exact owners

end Sys

end BackdropArc
