import BackdropArc.CountOverflow

/-!
# Grants of unique access

A uniqueness test and the grant that follows from it are separate steps.  The
grant is sound nevertheless: whoever loaded the count 1 owns the only
reference, and as long as the grant lasts nobody can make another one.  A test
that saw another count changes nothing and gives the same handle back.
-/

namespace BackdropArc

open GuardedRuns CountedLifecycle

variable {N : Nat} {V S : Type}

/-- The actions that consume the handle under `key`, change its type, or end
the mutable borrow of it. -/
def Act.takes (key : Nat) : Act N V S → Bool
  | .convert used _ | .drop used | .forget used | .unique _ used
  | .intoInner used | .endGrant used => used = key
  | _ => false

/-- The actions that end sole ownership of the handle under `key`. -/
def Act.endsSole (key : Nat) : Act N V S → Bool
  | .endGrant used | .convert used .shareable | .drop used | .forget used
  | .intoInner used => used = key
  | _ => false

/-- The answer of a test that did not find the handle unique, where `copies`
is the count at that moment.  Copies on write have no such answer. -/
def UniqueCall.refusal (call : UniqueCall) (key copies : Nat) : Option (Answer V) :=
  match call with
  | .getMut | .getUnique => some .none
  | .tryAsUnique | .tryUnique | .tryUnwrap => some (.same key)
  | .mustBeUnique => some (.panicked (mustBeUniqueMessage copies))
  | .unwrapOrClone | .makeMut | .makeUnique | .offsetMakeMut => none

namespace Sys

variable {s next : Sys N V S} {t : Fin N} {word : MachineWord} {p key : Nat}
  {hd : Handle S}

theorem kept_of_advanced (advanced : Advanced word s t next)
    (found : s.handles.get? key = some hd) : next.handles.get? key = some hd := by
  cases advanced with
  | fetchAdd | moved | lastReleased | acquired => exact found
  | cloned => exact SlotTable.get?_insert_of_found found _
  | grant _ granted => exact (settles_grant granted).kept key hd found
  | decline _ _ declined => exact (settles_decline declined).kept key hd found
  | released _ _ _ finished | finalized _ _ finished =>
      exact (settles_finish finished).kept key hd found

theorem kept_of_called {act : Act N V S} (called : Called word s t act next)
    (found : s.handles.get? key = some hd) (spared : act.takes key = false) :
    next.handles.get? key = some hd := by
  cases called with
  | new | newUnique | next | unwindMake | unwindOffsetMakeMut =>
      exact SlotTable.get?_insert_of_found found _
  | borrow | endBorrow | read | count | clone | cloneMany | nextNone | cloneIter
  | dropSpentIter | dropIter | forgetIter | enter | leave | unwindCallback
  | unwindUnwrapOrClone | readMut | write | readClone | unwrappedClone | copyMade =>
      exact found
  | @convert used conversion stored converted freed =>
      have other : used ≠ key := by simpa [Act.takes] using spared
      simp only
      rw [SlotTable.get?_replace (free_eq_ok.mp freed).1, if_neg (Ne.symm other), found]
  | @endGrant used stored lent =>
      have other : used ≠ key := by simpa [Act.takes] using spared
      simp only
      rw [SlotTable.get?_replace lent, if_neg (Ne.symm other), found]
  | @drop used | @forget used | @unique call used | @intoInner used =>
      have other : used ≠ key := by simpa [Act.takes] using spared
      simp only
      rw [SlotTable.get?_erase, if_neg (Ne.symm other), found]

/-- A step leaves every handle in place that its action does not take. -/
theorem kept_of_step {act : Act N V S} (stepped : step word s (t, act) = .ok next)
    (found : s.handles.get? key = some hd) (spared : act.takes key = false) :
    next.handles.get? key = some hd := by
  rcases step_cases stepped with ⟨rfl, advanced⟩ | ⟨_, called⟩
  · exact kept_of_advanced advanced found
  · exact kept_of_called called found spared

/-- A handle that may be moved and stands for sole ownership is a `UniqueArc`. -/
theorem form_of_freed {stored : Handle S} (freed : s.free key = .ok stored)
    (found : s.handles.get? key = some hd) (sole : hd.sole = true) :
    stored.form = .uniqueArc := by
  obtain ⟨same, unlent, _⟩ := free_eq_ok.mp freed
  obtain rfl : stored = hd := by simpa [found] using same.symm
  simpa [Handle.sole, unlent] using sole

/-- Sole ownership lasts until an action ends it: the borrow ends, the
`UniqueArc` is turned back by `shareable`, or it is consumed. -/
theorem sole_of_step {act : Act N V S} (stepped : step word s (t, act) = .ok next)
    (found : s.handles.get? key = some hd) (sole : hd.sole = true)
    (lasting : act.endsSole key = false) : next.handles.get? key = some hd := by
  cases spared : act.takes key with
  | false => exact kept_of_step stepped found spared
  | true =>
      rcases step_cases stepped with ⟨rfl, _⟩ | ⟨_, called⟩
      · simp [Act.takes] at spared
      · exfalso
        cases called with
        | @convert used conversion stored converted freed applied =>
            obtain rfl : used = key := by simpa [Act.takes] using spared
            have form := form_of_freed freed found sole
            cases conversion <;>
              simp [Conversion.apply, form, Act.endsSole] at applied lasting
        | @unique call used loaded stored freed right =>
            obtain rfl : used = key := by simpa [Act.takes] using spared
            have form := form_of_freed freed found sole
            cases call <;> simp [form, UniqueCall.form] at right
        | drop | forget | intoInner | endGrant =>
            simp [Act.takes, Act.endsSole] at spared lasting
            exact lasting spared
        | _ => simp [Act.takes] at spared

/-- Nobody but one handle refers to block `p`. -/
structure Alone (s : Sys N V S) (p key : Nat) : Prop where
  counted : s.heap.status p = .counted 1
  handles : ∀ other hd, s.handles.get? other = some hd → hd.p = p → other = key
  inFlight : s.inFlight p = 0
  arcsLeft : s.arcsLeft p = 0
  leaked : s.heap.leakedAt p = 0
  borrows : ∀ borrow, s.Borrows borrow → borrow.p ≠ p

/-- A handle that stands for sole ownership is alone on its block. -/
theorem Sound.alone (sound : s.Sound) (found : s.handles.get? key = some hd)
    (sole : hd.sole = true) : s.Alone hd.p key := by
  have claimed : s.Claimed hd.p := Or.inl ⟨key, hd, found, sole, rfl⟩
  have single := sound.sole hd.p claimed
  have weight := SlotTable.le_weigh (Handle.refs hd.p) found
  rw [handle_refs_self] at weight
  have parts := single
  unfold owners liveHandles at parts
  refine ⟨?_, fun other stored here same => ?_, by omega, by omega, by omega, ?_⟩
  · rw [sound.counted_of_owned (by omega), single]
  · by_contra different
    have both := SlotTable.add_le_weigh (Handle.refs hd.p) different here found
    rw [handle_refs_self, ← same, handle_refs_self, same] at both
    omega
  · rintro borrow alive same
    have shared := sound.shared_of_roots (sound.rooted borrow alive)
    exact shared.2 (same ▸ claimed)

/-- A call that knows it is unique owns the only reference. -/
theorem Sound.claim_spec (sound : s.Sound) (claim : (s.threads t).op.claim? = some p) :
    s.heap.status p = .counted 1 ∧ s.liveHandles p = 0 ∧ s.arcsLeft p = 0 ∧
      s.heap.leakedAt p = 0 ∧ s.inFlight p = 1 := by
  have single := sound.sole p (Or.inr ⟨t, claim⟩)
  have owned := refs_of_claim claim
  have thread := op_refs_le (s.threads t) p
  have all := refs_le_inFlight s t p
  have parts := single
  unfold owners at parts
  refine ⟨?_, by omega, by omega, by omega, by omega⟩
  rw [sound.counted_of_owned (by omega), single]

/-- The test: the call keeps the handle it was given and the count it loaded. -/
theorem unique_spec {call : UniqueCall}
    (stepped : step word s (t, .unique call key) = .ok next) :
    ∃ ptr loaded, s.handles.get? key = some (ptr.handle call.form) ∧
      s.heap.status ptr.p = .counted loaded ∧
        (next.threads t).op = .tested call ptr loaded ∧ next.heap = s.heap := by
  rcases step_cases stepped with ⟨wrong, _⟩ | ⟨_, called⟩
  · simp at wrong
  · cases called with
    | @unique _ _ loaded hd freed form load =>
        obtain ⟨found, unlent, _⟩ := free_eq_ok.mp freed
        refine ⟨hd.toPointer, loaded, ?_, Heap.load_eq_ok.mp load, by simp [setOp], rfl⟩
        rw [found]
        obtain ⟨ptr, form', lent⟩ := hd
        simp only at unlent form
        simp [Pointer.handle, unlent, form]

/-- The grant: the call returns the only handle of the block, or goes on to
move the data out. -/
theorem Sound.granted (sound : s.Sound) {call : UniqueCall} {ptr : Pointer S}
    (op : (s.threads t).op = .tested call ptr 1) :
    ∃ next, step word s (t, .advance) = .ok next ∧ next.heap = s.heap ∧
      ((∃ hd, next.handles = s.handles.insert hd ∧ hd.toPointer = ptr ∧
          hd.sole = true) ∨
        (next.threads t).op = .moving ptr) := by
  have claim : (s.threads t).op.claim? = some ptr.p := by rw [op]; rfl
  have unique := assertUnique_of_counted (sound.claim_spec claim).1
  have advanced : step word s (t, .advance) = s.grant t call ptr := by
    simp [Sys.advance, op]
  rw [advanced]
  cases call with
  | getMut | makeMut | offsetMakeMut =>
      exact ⟨_, rfl, rfl, Or.inl ⟨_, rfl, rfl, rfl⟩⟩
  | getUnique | tryAsUnique | mustBeUnique | makeUnique | tryUnique =>
      exact ⟨_, bind_eq_ok.mpr ⟨(), unique, rfl⟩, rfl, Or.inl ⟨_, rfl, rfl, rfl⟩⟩
  | tryUnwrap | unwrapOrClone =>
      exact ⟨_, bind_eq_ok.mpr ⟨(), unique, rfl⟩, rfl, Or.inr (by simp [setOp])⟩

/-- The refusal: the call gives back the handle it was given. -/
theorem refused {call : UniqueCall} {ptr : Pointer S} {loaded copies : Nat}
    {answer : Answer V} (op : (s.threads t).op = .tested call ptr loaded)
    (shared : loaded ≠ 1) (counted : s.heap.status ptr.p = .counted copies)
    (refusal : call.refusal s.handles.nextKey copies = some answer) :
    step word s (t, .advance) = .ok (s.give t (ptr.handle call.form) answer) := by
  have advanced : step word s (t, .advance) = s.decline t call ptr := by
    simp [Sys.advance, op, shared]
  rw [advanced]
  cases call with
  | getMut | getUnique | tryAsUnique | tryUnique | tryUnwrap =>
      obtain rfl := Option.some.inj refusal
      rfl
  | mustBeUnique =>
      obtain rfl := Option.some.inj refusal
      exact bind_eq_ok.mpr ⟨copies, Heap.load_eq_ok.mpr counted, rfl⟩
  | unwrapOrClone | makeMut | makeUnique | offsetMakeMut =>
      simp [UniqueCall.refusal] at refusal

/-- After the count wrapped around, `get_mut` grants a mutable reference into
a block that another handle and an iterator still refer to. -/
theorem wrappedCrowd_granted (spare : maxRefcount word + 3 ≤ t) :
    ∃ s, Reaches (step word) Keeps (wrappedCrowd word N) s ∧
      s.handles.get? 0 = some ⟨⟨0, ()⟩, .arc, false⟩ ∧
        s.handles.get? 2 = some ⟨⟨0, ()⟩, .arc, true⟩ ∧
          s.iters.get? 0 = some ⟨⟨0, 0⟩, (), maxRefcount word - 2⟩ := by
  have idle := wrappedCrowd_idle word spare
  have freed := wrappedCrowd_free word N
  let tested : Sys N Unit Unit :=
    { wrappedCrowd word N with
      handles := (wrappedCrowd word N).handles.erase 1
      threads := (wrappedCrowd word N).setOp t (.tested .getMut ⟨0, ()⟩ 1) }
  have loaded : step word (wrappedCrowd word N) (t, .unique .getMut 1) = .ok tested := by
    rw [step_of_idle (by rw [idle]) (by simp)]
    exact bind_eq_ok.mpr ⟨_, freed, bind_eq_ok.mpr ⟨(), rfl, rfl⟩⟩
  have granted : step word tested (t, .advance) =
      .ok (tested.give t ⟨⟨0, ()⟩, .arc, true⟩ (.granted 2)) := by
    simp only [step_advance, Sys.advance, tested, setOp, Function.update_self, if_true]
    rfl
  exact ⟨_, (Reaches.refl.tail _ ⟨rfl, rfl⟩ loaded).tail _ ⟨rfl, rfl⟩ granted,
    rfl, rfl, rfl⟩

end Sys

end BackdropArc
