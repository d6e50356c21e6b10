import BackdropArc.PointerForms

/-!
# Programs that convert the handles of one allocation

Whatever the sequence of conversions, every handle leads to the block that it
started from, and the count of the block changes only by the clones and drops
among them.
-/

namespace BackdropArc

open GuardedRuns LockstepRuns RecordLayout

variable {word : MachineWord} {Ty V S : Type}

inductive PointerForm
  | arc
  /-- From `into_raw` or `RefCnt::into_ptr`. -/
  | raw
  | offsetArc
  deriving DecidableEq, Repr

/-- A handle in a variable of the program: its form and the word it consists
of. -/
structure Owned where
  form : PointerForm
  word : Nat
  deriving DecidableEq, Repr

structure PointerProgram (Ty V S : Type) where
  heap : Heap (Cell Ty V) S
  owned : SlotTable Owned

/-- What the program can do with the handle under a key.  `uninit` is the
address of the local variable in `offset_of!`. -/
inductive PointerAction
  | asPtr (key : Nat)
  | intoRaw (key : Nat)
  | fromRaw (key uninit : Nat)
  | intoRawOffset (key : Nat)
  | fromRawOffset (key uninit : Nat)
  | intoPtr (key : Nat)
  | fromPtr (key uninit : Nat)
  /-- `borrow_arc` of an `Arc`, then `clone_arc`. -/
  | borrowArc (key uninit : Nat)
  /-- `borrow_arc` of an `OffsetArc`, then `clone_arc`. -/
  | offsetBorrowArc (key uninit : Nat)
  | offsetCloneArc (key uninit : Nat)
  /-- `with_raw_offset_arc`, whose callback calls `clone_arc`. -/
  | withRawOffsetArc (key uninit : Nat)
  | clone (key : Nat)
  | cloneOffset (key uninit : Nat)
  | drop (key : Nat)
  | dropOffset (key uninit : Nat)
  deriving DecidableEq, Repr

namespace PointerAction

/-- The references that the action adds. -/
def clones : PointerAction → Nat
  | .borrowArc _ _ | .offsetBorrowArc _ _ | .offsetCloneArc _ _
  | .withRawOffsetArc _ _ | .clone _ | .cloneOffset _ _ => 1
  | _ => 0

/-- The references that the action gives up. -/
def drops : PointerAction → Nat
  | .drop _ | .dropOffset _ _ => 1
  | _ => 0

end PointerAction

namespace PointerProgram

variable [DecidableEq Ty] (target : Target word Ty V) (type : ArcType Ty S)

/-- The word of the handle under `key`, which must have the form. -/
def the (s : PointerProgram Ty V S) (key : Nat) (form : PointerForm) :
    Except Stop Nat := do
  let owned ← demandSome (s.owned.get? key) .refused
  demand (owned.form = form) .refused
  pure owned.word

/-- The compiler places a local variable where an object of its type may be. -/
def frame (ty : Ty) (uninit : Nat) : Except Stop Unit :=
  demand (Lies (target.inner ty) uninit) .refused

/-- One action, and the data pointer that occurs in it. -/
def step (s : PointerProgram Ty V S) :
    PointerAction → Except Stop (PointerProgram Ty V S × Option Nat)
  | .asPtr key => do
      let this ← s.the key .arc
      pure (s, some (Arc.asPtr target type.ty this))
  | .intoRaw key => do
      let this ← s.the key .arc
      let ptr := Arc.intoRaw target type.ty this
      pure ({ s with owned := s.owned.replace key ⟨.raw, ptr⟩ }, some ptr)
  | .fromRaw key uninit => do
      let ptr ← s.the key .raw
      frame target type.ty uninit
      let arc ← Arc.fromRawAt target uninit type.ty ptr
      pure ({ s with owned := s.owned.replace key ⟨.arc, arc⟩ }, some ptr)
  | .intoRawOffset key => do
      let this ← s.the key .arc
      let ptr ← Arc.intoRawOffset target type.ty this
      pure ({ s with owned := s.owned.replace key ⟨.offsetArc, ptr⟩ }, some ptr)
  | .fromRawOffset key uninit => do
      let ptr ← s.the key .offsetArc
      frame target type.ty uninit
      let arc ← Arc.fromRawOffset target uninit type.ty ptr
      pure ({ s with owned := s.owned.replace key ⟨.arc, arc⟩ }, some ptr)
  | .intoPtr key => do
      let this ← s.the key .arc
      let ptr := RefCnt.intoPtr target type.ty this
      pure ({ s with owned := s.owned.replace key ⟨.raw, ptr⟩ }, some ptr)
  | .fromPtr key uninit => do
      let ptr ← s.the key .raw
      frame target type.ty uninit
      let arc ← RefCnt.fromPtr target uninit type.ty ptr
      pure ({ s with owned := s.owned.replace key ⟨.arc, arc⟩ }, some ptr)
  | .borrowArc key uninit => do
      let this ← s.the key .arc
      frame target type.ty uninit
      let ptr ← Arc.borrowArc target s.heap type.ty this
      let (arc, heap) ← ArcBorrow.cloneArcAt target s.heap uninit type.ty ptr
      pure ({ s with heap := heap, owned := s.owned.insert ⟨.arc, arc⟩ }, some ptr)
  | .offsetBorrowArc key uninit => do
      let this ← s.the key .offsetArc
      frame target type.ty uninit
      let ptr ← OffsetArc.borrowArc target s.heap type.ty this
      let (arc, heap) ← ArcBorrow.cloneArcAt target s.heap uninit type.ty ptr
      pure ({ s with heap := heap, owned := s.owned.insert ⟨.arc, arc⟩ }, some ptr)
  | .offsetCloneArc key uninit => do
      let ptr ← s.the key .offsetArc
      frame target type.ty uninit
      let (arc, heap) ← OffsetArc.cloneArc target s.heap uninit type.ty ptr
      pure ({ s with heap := heap, owned := s.owned.insert ⟨.arc, arc⟩ }, some ptr)
  | .withRawOffsetArc key uninit => do
      let this ← s.the key .arc
      frame target type.ty uninit
      let (ptr, arc, heap) ← Arc.withRawOffsetArc target type.ty this fun transient => do
        let (arc, heap) ← OffsetArc.cloneArc target s.heap uninit type.ty transient
        pure (transient, arc, heap)
      pure ({ s with heap := heap, owned := s.owned.insert ⟨.arc, arc⟩ }, some ptr)
  | .clone key => do
      let this ← s.the key .arc
      let (arc, heap) ← Arc.clone s.heap word type.ty this
      pure ({ s with heap := heap, owned := s.owned.insert ⟨.arc, arc⟩ }, none)
  | .cloneOffset key uninit => do
      let this ← s.the key .offsetArc
      frame target type.ty uninit
      let (ptr, heap) ← OffsetArc.clone target s.heap uninit type.ty this
      pure ({ s with heap := heap, owned := s.owned.insert ⟨.offsetArc, ptr⟩ }, some ptr)
  | .drop key => do
      let this ← s.the key .arc
      let heap ← Arc.drop s.heap word type this
      pure ({ s with heap := heap, owned := s.owned.erase key }, none)
  | .dropOffset key uninit => do
      let ptr ← s.the key .offsetArc
      frame target type.ty uninit
      let heap ← OffsetArc.drop target s.heap uninit type ptr
      pure ({ s with heap := heap, owned := s.owned.erase key }, some ptr)

end PointerProgram

/-! ## Runs -/

/-- The word of a handle of this form to the block in `cell`. -/
def PointerForm.pointer (target : Target word Ty V) (cell : Cell Ty V) :
    PointerForm → Nat
  | .arc => cell.base
  | .raw | .offsetArc => cell.base + target.dataOffset cell.ty

namespace PointerProgram

variable {target : Target word Ty V} {type : ArcType Ty S}
  {s next : PointerProgram Ty V S} {p count : Nat} {cell : Cell Ty V}

/-- Every handle of the program leads to block `p`, whose count `count` covers
at least these handles.  A block with no references left is gone. -/
structure Leads (target : Target word Ty V) (p : Nat) (cell : Cell Ty V)
    (s : PointerProgram Ty V S) (count : Nat) : Prop where
  arranged : target.Arranged s.heap
  fits : count < word.modulus
  handles_le : s.owned.weigh (fun _ => 1) ≤ count
  live : 0 < count → s.heap.read p = .ok cell ∧ s.heap.status p = .counted count
  leads : ∀ key owned, s.owned.get? key = some owned →
    owned.word = owned.form.pointer target cell

/-- A data pointer that occurs in an action is the one of the block. -/
def Shows (target : Target word Ty V) (cell : Cell Ty V) (shown : Option Nat) : Prop :=
  ∀ ptr, shown = some ptr → ptr = cell.base + target.dataOffset cell.ty

theorem shows_none : Shows target cell none := by
  simp [Shows]

theorem shows_some : Shows target cell (some (cell.base + target.dataOffset cell.ty)) := by
  simp [Shows]

/-- The ways in which an action on a handle can end: `clones` and `drops` are
the references that it adds and gives up if it succeeds. -/
inductive Outcome (word : MachineWord) (target : Target word Ty V) (p : Nat)
    (cell : Cell Ty V) (strategy : S) (s : PointerProgram Ty V S) :
    (clones drops : Nat) →
      Except Stop (PointerProgram Ty V S × Option Nat) → Prop
  | refused {clones drops : Nat} :
      Outcome word target p cell strategy s clones drops (.error .refused)
  | observed {shown : Option Nat} :
      Shows target cell shown →
        Outcome word target p cell strategy s 0 0 (.ok (s, shown))
  | converted {key : Nat} {before : Owned} {shown : Option Nat} (form : PointerForm) :
      s.owned.get? key = some before → Shows target cell shown →
        Outcome word target p cell strategy s 0 0 (.ok ({ s with
          owned := s.owned.replace key ⟨form, form.pointer target cell⟩ }, shown))
  | cloned {key : Nat} {source : Owned} {shown : Option Nat} (form : PointerForm) :
      s.owned.get? key = some source → Shows target cell shown →
        Outcome word target p cell strategy s 1 0
          ((fun heap => (⟨heap, s.owned.insert ⟨form, form.pointer target cell⟩⟩, shown)) <$>
            s.heap.acquire word p)
  | dropped {key : Nat} {before : Owned} {shown : Option Nat} :
      s.owned.get? key = some before → Shows target cell shown →
        Outcome word target p cell strategy s 0 1
          ((fun heap => (⟨heap, s.owned.erase key⟩, shown)) <$>
            s.heap.release word p strategy)

theorem Leads.of_found (leads : Leads target p cell s count) {key : Nat} {owned : Owned}
    (found : s.owned.get? key = some owned) :
    s.heap.read p = .ok cell ∧ s.heap.status p = .counted count := by
  have weight := SlotTable.le_weigh (fun _ => 1) found
  have total := leads.handles_le
  exact leads.live (by omega)

/-- An action starts with a handle of the right form, or is refused. -/
theorem Leads.outcome_of_the (leads : Leads target p cell s count) {key : Nat}
    {form : PointerForm} {strategy : S} {clones drops : Nat}
    {rest : Nat → Except Stop (PointerProgram Ty V S × Option Nat)}
    (continues : ∀ owned, s.owned.get? key = some owned → s.heap.read p = .ok cell →
      Outcome word target p cell strategy s clones drops
        (rest (form.pointer target cell))) :
    Outcome word target p cell strategy s clones drops (s.the key form >>= rest) := by
  unfold the
  cases found : s.owned.get? key with
  | none => exact .refused
  | some owned =>
      by_cases same : owned.form = form
      · subst same
        have word_eq := leads.leads key owned found
        simpa [demandSome, demand, bind, Except.bind, pure, Except.pure, word_eq] using
          continues owned found (leads.of_found found).1
      · simp only [demandSome, demand, same, bind, Except.bind]
        exact .refused

theorem outcome_of_frame {ty : Ty} {uninit : Nat} {strategy : S} {clones drops : Nat}
    {rest : Except Stop (PointerProgram Ty V S × Option Nat)}
    (continues : Lies (target.inner ty) uninit →
      Outcome word target p cell strategy s clones drops rest) :
    Outcome word target p cell strategy s clones drops
      (frame target ty uninit >>= fun _ => rest) := by
  unfold frame demand
  by_cases lies : Lies (target.inner ty) uninit
  · rw [if_pos lies]
    exact continues lies
  · rw [if_neg lies]
    exact .refused

/-- A clone whose new handle the action stores. -/
theorem Outcome.of_acquired {key w : Nat} {source : Owned} {shown : Option Nat}
    {strategy : S} (form : PointerForm) (found : s.owned.get? key = some source)
    (shows : Shows target cell shown)
    {rest : Nat × Heap (Cell Ty V) S → Except Stop (PointerProgram Ty V S × Option Nat)}
    (stores : ∀ heap, rest (w, heap) =
      .ok (⟨heap, s.owned.insert ⟨form, form.pointer target cell⟩⟩, shown)) :
    Outcome word target p cell strategy s 1 0
      (((w, ·) <$> s.heap.acquire word p) >>= rest) := by
  have cloned : Outcome word target p cell strategy s 1 0 _ :=
    .cloned form found shows
  cases acquired : s.heap.acquire word p with
  | error stop => rwa [acquired] at cloned
  | ok heap =>
      have computed : (((w, ·) <$> Except.ok heap) >>= rest) = rest (w, heap) := rfl
      rw [acquired] at cloned
      rw [computed, stores]
      exact cloned

theorem Outcome.of_released {key : Nat} {before : Owned} {shown : Option Nat}
    {strategy : S} (found : s.owned.get? key = some before)
    (shows : Shows target cell shown)
    {rest : Heap (Cell Ty V) S → Except Stop (PointerProgram Ty V S × Option Nat)}
    (stores : ∀ heap, rest heap = .ok (⟨heap, s.owned.erase key⟩, shown)) :
    Outcome word target p cell strategy s 0 1
      (s.heap.release word p strategy >>= rest) := by
  have dropped : Outcome word target p cell strategy s 0 1 _ :=
    .dropped found shows
  cases released : s.heap.release word p strategy with
  | error stop => rwa [released] at dropped
  | ok heap =>
      have computed : (Except.ok heap >>= rest) = rest heap := rfl
      rw [released] at dropped
      rw [computed, stores]
      exact dropped

variable [DecidableEq Ty]

/-- Each action ends in one of these ways. -/
theorem Leads.outcome (leads : Leads target p cell s count) (typed : cell.ty = type.ty)
    (action : PointerAction) :
    Outcome word target p cell type.strategy s action.clones action.drops
      (step target type s action) := by
  obtain ⟨ty, strategy⟩ := type
  obtain rfl : cell.ty = ty := typed
  have arranged := leads.arranged
  cases action with
  | asPtr key =>
      refine leads.outcome_of_the fun owned found here => ?_
      rw [PointerForm.pointer, Arc.asPtr_eq arranged here]
      exact .observed shows_some
  | intoRaw key | intoPtr key =>
      refine leads.outcome_of_the fun owned found here => ?_
      simp only [PointerForm.pointer, RefCnt.intoPtr, Arc.intoRaw,
        Arc.asPtr_eq arranged here]
      exact .converted .raw found shows_some
  | fromRaw key uninit | fromPtr key uninit | fromRawOffset key uninit =>
      refine leads.outcome_of_the fun owned found here => outcome_of_frame fun lies => ?_
      simp only [PointerForm.pointer, RefCnt.fromPtr, Arc.fromRawOffset,
        Arc.fromRawAt_data arranged here lies]
      exact .converted .arc found shows_some
  | intoRawOffset key =>
      refine leads.outcome_of_the fun owned found here => ?_
      simp only [PointerForm.pointer, Arc.intoRawOffset_eq arranged here]
      exact .converted .offsetArc found shows_some
  | borrowArc key uninit =>
      refine leads.outcome_of_the fun owned found here => outcome_of_frame fun lies => ?_
      simp only [PointerForm.pointer, Arc.borrowArc_eq arranged here, bind, Except.bind]
      rw [ArcBorrow.cloneArcAt_eq arranged here lies]
      exact .of_acquired .arc found shows_some fun heap => rfl
  | offsetBorrowArc key uninit =>
      refine leads.outcome_of_the fun owned found here => outcome_of_frame fun lies => ?_
      simp only [PointerForm.pointer, OffsetArc.borrowArc_eq arranged here, bind, Except.bind]
      rw [ArcBorrow.cloneArcAt_eq arranged here lies]
      exact .of_acquired .arc found shows_some fun heap => rfl
  | offsetCloneArc key uninit =>
      refine leads.outcome_of_the fun owned found here => outcome_of_frame fun lies => ?_
      rw [PointerForm.pointer, OffsetArc.cloneArc_eq arranged here lies]
      exact .of_acquired .arc found shows_some fun heap => rfl
  | withRawOffsetArc key uninit =>
      refine leads.outcome_of_the fun owned found here => outcome_of_frame fun lies => ?_
      simp only [PointerForm.pointer, Arc.withRawOffsetArc,
        Arc.intoRawOffset_eq arranged here, bind_assoc]
      change Outcome _ _ _ _ _ _ _ _ (OffsetArc.cloneArc target s.heap uninit cell.ty
        (cell.base + target.dataOffset cell.ty) >>= _)
      rw [OffsetArc.cloneArc_eq arranged here lies]
      exact .of_acquired .arc found shows_some fun heap => rfl
  | clone key =>
      refine leads.outcome_of_the fun owned found here => ?_
      rw [PointerForm.pointer, Arc.clone_eq arranged here]
      exact .of_acquired .arc found shows_none fun heap => rfl
  | cloneOffset key uninit =>
      refine leads.outcome_of_the fun owned found here => outcome_of_frame fun lies => ?_
      rw [PointerForm.pointer, OffsetArc.clone_eq arranged here lies]
      exact .of_acquired .offsetArc found shows_some fun heap => rfl
  | drop key =>
      refine leads.outcome_of_the fun owned found here => ?_
      rw [PointerForm.pointer, Arc.drop_eq arranged here]
      exact .of_released found shows_none fun heap => rfl
  | dropOffset key uninit =>
      refine leads.outcome_of_the fun owned found here => outcome_of_frame fun lies => ?_
      rw [PointerForm.pointer, OffsetArc.drop_eq arranged here lies]
      exact .of_released found shows_some fun heap => rfl

omit [DecidableEq Ty] in
theorem Leads.acquired (leads : Leads target p cell s count) {key : Nat} {source : Owned}
    (found : s.owned.get? key = some source) {heap : Heap (Cell Ty V) S}
    (form : PointerForm) (acquired : s.heap.acquire word p = .ok heap) :
    Leads target p cell ⟨heap, s.owned.insert ⟨form, form.pointer target cell⟩⟩
      (count + 1) := by
  obtain ⟨here, counted⟩ := leads.of_found found
  have spec : if count ≤ maxRefcount word then
      ∃ next, s.heap.acquire word p = .ok next ∧
        s.heap.Recounts next p (.counted (count + 1))
    else s.heap.acquire word p = .error .aborted := Heap.acquire_spec counted
  split at spec
  · next few =>
      obtain ⟨_, same, recounts⟩ := spec
      obtain rfl := Except.ok.inj (acquired.symm.trans same)
      have width := word.modulus_eq
      unfold maxRefcount at few
      have there : heap.status p = .counted (count + 1) := by
        rw [recounts.changes.status_eq, if_pos rfl]
      refine ⟨leads.arranged.recounts recounts ⟨count, counted⟩, by omega, ?_, ?_, ?_⟩
      · have total := leads.handles_le
        rw [SlotTable.weigh_insert]
        omega
      · refine fun _ => ⟨Heap.read_eq_ok.mpr ⟨⟨_, there⟩, ?_⟩, there⟩
        rw [recounts.dataAt_eq]
        exact (Heap.read_eq_ok.mp here).2
      · intro other stored at_other
        rcases SlotTable.get?_of_insert at_other with rfl | before
        · rfl
        · exact leads.leads other stored before
  · rw [acquired] at spec
    cases spec

omit [DecidableEq Ty] in
theorem Leads.released (leads : Leads target p cell s count) {key : Nat} {before : Owned}
    (found : s.owned.get? key = some before) {heap : Heap (Cell Ty V) S} {strategy : S}
    (released : s.heap.release word p strategy = .ok heap) :
    ∃ others, others + 1 = count ∧
      Leads target p cell ⟨heap, s.owned.erase key⟩ others := by
  obtain ⟨here, counted⟩ := leads.of_found found
  have weight := SlotTable.le_weigh (fun _ => 1) found
  have total := leads.handles_le
  obtain ⟨others, rfl⟩ : ∃ others, count = others + 1 := ⟨count - 1, by omega⟩
  have fits := leads.fits
  obtain ⟨_, same, recounts, _⟩ := Heap.release_spec counted fits strategy
  obtain rfl := Except.ok.inj (released.symm.trans same)
  refine ⟨others, rfl, leads.arranged.recounts recounts ⟨_, counted⟩, by omega, ?_, ?_, ?_⟩
  · have erased := SlotTable.weigh_erase (fun _ => 1) s.owned key
    rw [SlotTable.weighAt_of_found _ found] at erased
    simp only
    omega
  · intro some
    have there : heap.status p = .counted others := by
      rw [recounts.changes.status_eq, if_pos rfl, if_neg (by omega)]
    refine ⟨Heap.read_eq_ok.mpr ⟨⟨_, there⟩, ?_⟩, there⟩
    rw [recounts.dataAt_eq]
    exact (Heap.read_eq_ok.mp here).2
  · exact fun other stored at_other => leads.leads other stored (SlotTable.get?_of_erase at_other)

omit [DecidableEq Ty] in
theorem Leads.converted (leads : Leads target p cell s count) {key : Nat} {before : Owned}
    (found : s.owned.get? key = some before) (form : PointerForm) :
    Leads target p cell
      { s with owned := s.owned.replace key ⟨form, form.pointer target cell⟩ } count := by
  refine ⟨leads.arranged, leads.fits, ?_, leads.live, ?_⟩
  · have replaced := SlotTable.weigh_replace (fun _ => 1) found
      (⟨form, form.pointer target cell⟩ : Owned)
    have total := leads.handles_le
    simp only
    omega
  · intro other stored at_other
    rw [SlotTable.get?_replace found] at at_other
    split at at_other
    · obtain rfl := Option.some.inj at_other
      rfl
    · exact leads.leads other stored at_other

/-- What one action does to the tally of references. -/
theorem Leads.stepped (leads : Leads target p cell s count) (typed : cell.ty = type.ty)
    {action : PointerAction} {shown : Option Nat}
    (stepped : step target type s action = .ok (next, shown)) :
    Shows target cell shown ∧
      ∃ count', Leads target p cell next count' ∧
        count' + action.drops = count + action.clones := by
  have outcome := leads.outcome typed action
  rw [stepped] at outcome
  generalize result_eq : (Except.ok (next, shown) :
    Except Stop (PointerProgram Ty V S × Option Nat)) = result at outcome
  generalize action.clones = clones, action.drops = drops at outcome ⊢
  cases outcome with
  | refused => cases result_eq
  | observed shows =>
      obtain ⟨rfl, rfl⟩ := Prod.mk.inj (Except.ok.inj result_eq)
      exact ⟨shows, count, leads, rfl⟩
  | converted form found shows =>
      obtain ⟨rfl, rfl⟩ := Prod.mk.inj (Except.ok.inj result_eq)
      exact ⟨shows, count, leads.converted found form, rfl⟩
  | cloned form found shows =>
      obtain ⟨heap, acquired, same⟩ := map_eq_ok.mp result_eq.symm
      obtain ⟨rfl, rfl⟩ := Prod.mk.inj same
      exact ⟨shows, count + 1, leads.acquired found form acquired, rfl⟩
  | dropped found shows =>
      obtain ⟨heap, released, same⟩ := map_eq_ok.mp result_eq.symm
      obtain ⟨rfl, rfl⟩ := Prod.mk.inj same
      obtain ⟨others, same, after⟩ := leads.released found released
      exact ⟨shows, others, after, by omega⟩

theorem led_of_step (typed : cell.ty = type.ty) {action : PointerAction}
    {shown : Option Nat} (led : ∃ count, Leads target p cell s count)
    (stepped : step target type s action = .ok (next, shown)) :
    (∃ count, Leads target p cell next count) ∧ Shows target cell shown := by
  obtain ⟨count, leads⟩ := led
  obtain ⟨shows, count', after, _⟩ := leads.stepped typed stepped
  exact ⟨⟨count', after⟩, shows⟩

theorem balanced_step (typed : cell.ty = type.ty) (s : PointerProgram Ty V S)
    (action : PointerAction) (next : PointerProgram Ty V S) (shown : Option Nat)
    (count : Nat) (leads : Leads target p cell s count)
    (stepped : step target type s action = .ok (next, shown)) :
    ∃ count', Leads target p cell next count' ∧
      count' + action.drops = count + action.clones :=
  (leads.stepped typed stepped).2

theorem Leads.avoids (leads : Leads target p cell s count) (typed : cell.ty = type.ty)
    (action : PointerAction) : Avoids Stop.Faulty (step target type s action) := by
  have outcome := leads.outcome typed action
  generalize step target type s action = result at outcome ⊢
  generalize action.clones = clones, action.drops = drops at outcome
  cases outcome with
  | refused => exact avoids_error Stop.not_faulty_refused
  | observed | converted => exact avoids_ok rfl
  | cloned form found =>
      refine Avoids.map ?_ _
      exact Heap.avoids_acquire (leads.of_found found).2
  | dropped found =>
      refine Avoids.map ?_ _
      have weight := SlotTable.le_weigh (fun _ => 1) found
      have total := leads.handles_le
      obtain ⟨others, rfl⟩ : ∃ others, count = others + 1 := ⟨count - 1, by omega⟩
      obtain ⟨_, released, _⟩ :=
        Heap.release_spec (leads.of_found found).2 leads.fits type.strategy
      exact avoids_ok released

/-- A program that starts with one handle to block `p`. -/
def start (heap : Heap (Cell Ty V) S) (cell : Cell Ty V) : PointerProgram Ty V S :=
  ⟨heap, SlotTable.empty.insert ⟨.arc, cell.base⟩⟩

omit [DecidableEq Ty] in
theorem leads_start {heap : Heap (Cell Ty V) S} (arranged : target.Arranged heap)
    (here : heap.read p = .ok cell) (counted : heap.status p = .counted count)
    (alive : 0 < count) (fits : count < word.modulus) :
    Leads target p cell (start heap cell) count := by
  refine ⟨arranged, fits, ?_, fun _ => ⟨here, counted⟩, fun key owned found => ?_⟩
  · simp only [start, SlotTable.weigh_insert, SlotTable.weigh_empty]
    omega
  · rcases SlotTable.get?_of_insert found with rfl | before
    · rfl
    · simp at before

/-- Every sequence of conversions leads back to the same allocation: for every
sized type and every block of it at a suitable address, every data pointer that
occurs is the `as_ptr` of the first `Arc`, every `Arc` points to the block that
it started from, and the count has changed by the clones and drops performed.
A slice of any length comes back from `into_raw` and `from_raw_slice` with the
same block and length, whatever type the block was allocated for. -/
theorem pointer_forms_lead_back {heap : Heap (Cell Ty V) S}
    (arranged : target.Arranged heap) (here : heap.read p = .ok cell)
    (typed : cell.ty = type.ty) (counted : heap.status p = .counted count)
    (alive : 0 < count) (fits : count < word.modulus) :
    (∀ actions, let ended := run (step target type) (start heap cell) actions
      (∀ ptr, some ptr ∈ ended.1 → ptr = Arc.asPtr target type.ty cell.base) ∧
      (∀ stop, ended.2 = .error stop → ¬ stop.Faulty) ∧
      ∀ last, ended.2 = .ok last →
        ∀ key owned, last.owned.get? key = some owned →
          (if owned.form = .arc then
            owned.word = cell.base ∧
              Target.arcInnerAt last.heap type.ty owned.word = .ok p
          else owned.word = Arc.asPtr target type.ty cell.base) ∧
          ∃ count', last.heap.status p = .counted count' ∧
            count' + (actions.map (·.drops)).sum =
              count + (actions.map (·.clones)).sum) ∧
    ∀ (elem : ElemType word) (len base uninit : Nat) (data : DataType word),
      Relation.ReflTransGen Cast data (.slice elem len) →
        Lies (arcInner target.count data) base →
          Lies (arcInner target.count (.sized elem)) uninit →
            Arc.fromRawSlice target.count elem uninit
              (Arc.sliceIntoRaw target.count elem ⟨base, len⟩) = .ok ⟨base, len⟩ := by
  have initial := leads_start arranged here counted alive fits
  have data_eq : Arc.asPtr target type.ty cell.base =
      cell.base + target.dataOffset cell.ty := by
    rw [← typed]
    exact Arc.asPtr_eq arranged here
  refine ⟨fun actions => ⟨fun ptr shown => ?_, fun stop ends => ?_, ?_⟩,
    fun elem len base uninit data => Arc.fromRawSlice_eq⟩
  · have all : ∀ shown ∈ (run (step target type) (start heap cell) actions).1,
        Shows target cell shown :=
      run_shows (fun _ _ _ _ led stepped => led_of_step typed led stepped) actions
        ⟨count, initial⟩
    rw [data_eq]
    exact all (some ptr) shown ptr rfl
  · refine run_avoids (fun _ _ _ _ led stepped => (led_of_step typed led stepped).1)
      (fun _ action stop led stopped => ?_) ⟨count, initial⟩ ends
    obtain ⟨_, leads⟩ := led
    exact leads.avoids typed action stop stopped
  · intro last ends key owned found
    obtain ⟨count', leads, balance⟩ := run_balance (balanced_step typed) initial ends
    obtain ⟨there, counted'⟩ := leads.of_found found
    have word_eq := leads.leads key owned found
    refine ⟨?_, count', counted', balance⟩
    cases form : owned.form with
    | arc =>
        rw [form] at word_eq
        rw [if_pos rfl, ← typed, word_eq]
        exact ⟨rfl, leads.arranged.arcInnerAt_eq there⟩
    | raw | offsetArc =>
        rw [form] at word_eq
        rw [if_neg (by simp), data_eq]
        exact word_eq

/-- A zero-sized type with the alignment 64. -/
def overAligned : Target .wide Unit Nat :=
  .wide ⟨0, ⟨6, by decide⟩, Nat.dvd_zero _⟩ fun x y => x = y

/-- A handle goes out as an `OffsetArc` and a raw pointer, is cloned, and comes
back. -/
theorem pointer_forms_lead_back_witness :
    ∃ last : PointerProgram Unit Nat Unit,
      (run (step overAligned ⟨(), ()⟩) (start (Heap.allocate [] ⟨64, (), 7⟩) ⟨64, (), 7⟩)
        [.intoRawOffset 0, .offsetCloneArc 0 128, .fromRawOffset 0 256, .intoPtr 1,
          .fromRaw 1 128]).2 = .ok last ∧
        last.owned.get? 1 = some ⟨.arc, 64⟩ ∧
          Target.arcInnerAt last.heap () 64 = .ok 0 := by
  have arranged : overAligned.Arranged
      (Heap.allocate [] ⟨64, (), 7⟩ : Heap (Cell Unit Nat) Unit) :=
    .single (by decide)
  have typed : (⟨64, (), 7⟩ : Cell Unit Nat).ty = (⟨(), ()⟩ : ArcType Unit Unit).ty := rfl
  have counted : (Heap.allocate [] ⟨64, (), 7⟩ : Heap (Cell Unit Nat) Unit).status 0 =
    .counted 1 := rfl
  have leads := (pointer_forms_lead_back arranged rfl typed counted
    (by decide) (by decide)).1
      [.intoRawOffset 0, .offsetCloneArc 0 128, .fromRawOffset 0 256, .intoPtr 1,
        .fromRaw 1 128]
  exact ⟨_, rfl, rfl, (leads.2.2 _ rfl 1 ⟨.arc, 64⟩ rfl).1.2⟩

end PointerProgram

end BackdropArc
