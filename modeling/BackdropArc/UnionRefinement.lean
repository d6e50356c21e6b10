import BackdropArc.UnionPrograms

/-!
# The tagged word refines the enumeration

Replace the name of every block by its address, and every variant by its tagged
word: this carries each step of a program with the enumeration to the same step
of the program with tagged words.  Hence the two show the same in all runs.
-/

namespace BackdropArc

open GuardedRuns LockstepRuns

variable {word : MachineWord} {Ty V S : Type} {target : Target word Ty V}

/-! ## Names and addresses -/

section Address

variable {heap next : Heap (Cell Ty V) S}

theorem Heap.Recounts.address_eq {p : Nat} {after : Status}
    (recounts : heap.Recounts next p after) : next.address = heap.address := by
  funext q
  simp only [Heap.address, recounts.dataAt_eq]

theorem UnionEnum.encode_of_address {union : UnionEnum} {type : UnionType Ty S}
    (same : next.address union.block = heap.address union.block) :
    union.encode target next type = union.encode target heap type := by
  cases union with
  | first arc | second arc =>
      have sameAddress : next.address arc = heap.address arc := same
      simp only [encode, sameAddress]

end Address

namespace Program

def lowerArc (heap : Heap (Cell Ty V) S) (arc : Var (ArcType Ty S) Nat) :
    Var (ArcType Ty S) Nat :=
  ⟨arc.type, heap.address arc.value⟩

def lowerUnion (target : Target word Ty V) (heap : Heap (Cell Ty V) S)
    (union : Var (UnionType Ty S) UnionEnum) : Var (UnionType Ty S) Nat :=
  ⟨union.type, union.value.encode target heap union.type⟩

/-- The program with tagged words. -/
def lower (target : Target word Ty V) (s : Program Ty V S Nat UnionEnum) :
    Program Ty V S Nat Nat :=
  ⟨s.heap, s.arcs.map (lowerArc s.heap), s.unions.map (lowerUnion target s.heap)⟩

variable {s : Program Ty V S Nat UnionEnum} {heap : Heap (Cell Ty V) S}

theorem lowerArc_recounts {p : Nat} {after : Status}
    (recounts : s.heap.Recounts heap p after) :
    (lowerArc heap : Var (ArcType Ty S) Nat → _) = lowerArc s.heap := by
  funext arc
  simp only [lowerArc, recounts.address_eq]

theorem lowerUnion_recounts {p : Nat} {after : Status}
    (recounts : s.heap.Recounts heap p after) :
    lowerUnion target heap = lowerUnion target s.heap := by
  funext union
  simp only [lowerUnion,
    UnionEnum.encode_of_address (congrFun recounts.address_eq union.value.block)]

theorem address_allocate (cell : Cell Ty V) {p : Nat} {ty : Ty}
    (typed : Typed s.heap p ty) : (s.heap.allocate cell).address p = s.heap.address p := by
  obtain ⟨stored, found, _⟩ := typed
  have inside : p ≠ s.heap.length := by
    rintro rfl
    simp [Heap.dataAt] at found
  simp only [Heap.address, Heap.dataAt_allocate, if_neg inside]

theorem map_lowerArc_allocate (sound : Sound target s) (cell : Cell Ty V) :
    s.arcs.map (lowerArc (s.heap.allocate cell)) = s.arcs.map (lowerArc s.heap) :=
  SlotTable.map_congr fun key arc found => by
    simp only [lowerArc, address_allocate cell (sound.arcs key arc found)]

theorem map_lowerUnion_allocate (sound : Sound target s) (cell : Cell Ty V) :
    s.unions.map (lowerUnion target (s.heap.allocate cell)) =
      s.unions.map (lowerUnion target s.heap) :=
  SlotTable.map_congr fun key union found => by
    simp only [lowerUnion,
      UnionEnum.encode_of_address (address_allocate cell (sound.unions key union found))]

/-! ## One step -/

theorem variable_map {Value Lowered Next After : Type} {value? : Option Value}
    {change : Value → Lowered} {lowering : Next → After}
    {rest : Value → Except Stop Next} {loweredRest : Lowered → Except Stop After}
    (carried : ∀ value, value? = some value →
      loweredRest (change value) = (rest value).map lowering) :
    (demandSome (value?.map change) .refused >>= loweredRest) =
      (demandSome value? .refused >>= rest).map lowering := by
  cases found : value? with
  | none => rfl
  | some value => exact carried value found

theorem result_map {Result Next After : Type} {lowering : Next → After}
    {result : Except Stop Result} {rest : Result → Except Stop Next}
    {loweredRest : Result → Except Stop After}
    (carried : ∀ value, result = .ok value →
      loweredRest value = (rest value).map lowering) :
    (result >>= loweredRest) = (result >>= rest).map lowering := by
  cases computed : result with
  | error stop => rfl
  | ok value => exact carried value computed

theorem pair_map {Value Lowered Result Next After : Type} {lowering : Next → After}
    {result : Except Stop Result} {value : Value} {lowered : Lowered}
    {rest : Value × Result → Except Stop Next}
    {loweredRest : Lowered × Result → Except Stop After}
    (carried : ∀ second, result = .ok second →
      loweredRest (lowered, second) = (rest (value, second)).map lowering) :
    ((lowered, ·) <$> result >>= loweredRest) =
      ((value, ·) <$> result >>= rest).map lowering := by
  cases computed : result with
  | error stop => rfl
  | ok second => exact carried second computed

theorem lower_of_recounts {p : Nat} {after : Status}
    (recounts : s.heap.Recounts heap p after)
    (arcs : SlotTable (Var (ArcType Ty S) Nat))
    (unions : SlotTable (Var (UnionType Ty S) UnionEnum)) :
    lower target ⟨heap, arcs, unions⟩ =
      ⟨heap, arcs.map (lowerArc s.heap), unions.map (lowerUnion target s.heap)⟩ := by
  simp only [lower, lowerArc_recounts recounts, lowerUnion_recounts recounts]

theorem Sound.lower_of_acquire (sound : Sound target s) {p : Nat} (held : 0 < s.refs p)
    (acquired : s.heap.acquire word p = .ok heap)
    (arcs : SlotTable (Var (ArcType Ty S) Nat))
    (unions : SlotTable (Var (UnionType Ty S) UnionEnum)) :
    lower target ⟨heap, arcs, unions⟩ =
      ⟨heap, arcs.map (lowerArc s.heap), unions.map (lowerUnion target s.heap)⟩ := by
  have spec := sound.acquire held
  split at spec
  · obtain ⟨next, same, recounts⟩ := spec
    obtain rfl := Except.ok.inj (acquired.symm.trans same)
    exact lower_of_recounts recounts arcs unions
  · rw [acquired] at spec
    cases spec

theorem Sound.lower_of_release (sound : Sound target s) {p : Nat} {strategy : S}
    (held : 0 < s.refs p) (released : s.heap.release word p strategy = .ok heap)
    (arcs : SlotTable (Var (ArcType Ty S) Nat))
    (unions : SlotTable (Var (UnionType Ty S) UnionEnum)) :
    lower target ⟨heap, arcs, unions⟩ =
      ⟨heap, arcs.map (lowerArc s.heap), unions.map (lowerUnion target s.heap)⟩ := by
  obtain ⟨next, same, recounts, _⟩ := sound.release held strategy
  obtain rfl := Except.ok.inj (released.symm.trans same)
  exact lower_of_recounts recounts arcs unions

section SameType

variable {key other : Nat} {union against : Var (UnionType Ty S) UnionEnum}

theorem Sound.ptrEq_encode (sound : Sound target s) (found : s.unions.get? key = some union)
    (otherFound : s.unions.get? other = some against) (sameType : union.type = against.type) :
    ArcUnion.ptrEq (union.value.encode target s.heap union.type)
        (against.value.encode target s.heap against.type) =
      decide (union.value = against.value) := by
  obtain ⟨cell, here, typed⟩ := sound.read_union found
  obtain ⟨otherCell, there, otherTyped⟩ := sound.read_union otherFound
  rw [← sameType] at otherTyped ⊢
  exact ArcUnion.ptrEq_eq sound.arranged here typed there otherTyped

theorem Sound.eq_encode [DecidableEq Ty] (sound : Sound target s)
    (found : s.unions.get? key = some union) (otherFound : s.unions.get? other = some against)
    (sameType : union.type = against.type) :
    ArcUnion.eq target s.heap union.type (union.value.encode target s.heap union.type)
        (against.value.encode target s.heap against.type) =
      UnionEnum.eq target s.heap union.type union.value against.value := by
  obtain ⟨cell, here, typed⟩ := sound.read_union found
  obtain ⟨otherCell, there, otherTyped⟩ := sound.read_union otherFound
  rw [← sameType] at otherTyped ⊢
  exact ArcUnion.eq_eq sound.arranged here typed there otherTyped

end SameType

variable [DecidableEq Ty] [DecidableEq S]

/-- The action is the same step in both programs. -/
def Carried (target : Target word Ty V) (s : Program Ty V S Nat UnionEnum)
    (action : UnionAction Ty V S) : Prop :=
  step target (Handles.tagged target) (lower target s) action =
    (step target (Handles.enum target) s action).map (Prod.map (lower target) id)

section Carried

variable (sound : Sound target s)

include sound

theorem carried_newArc (type : ArcType Ty S) (data : V) (base : Nat) :
    Carried target s (.newArc type data base) := by
  unfold Carried
  simp only [step, lower]
  refine result_map fun _ demanded => ?_
  have vacant : target.Vacant s.heap type.ty base := demand_eq_ok.mp demanded
  have made : (Handles.tagged (S := S) target).newArc s.heap.length base = .ok base :=
    newUnchecked_eq vacant.1.1
  have address : (s.heap.allocate ⟨base, type.ty, data⟩).address s.heap.length = base := by
    simp [Heap.address, Heap.dataAt_allocate]
  rw [made]
  simp only [Handles.enum, bind, Except.bind, pure, Except.pure, Except.map, Prod.map,
    SlotTable.map_insert, map_lowerArc_allocate sound, map_lowerUnion_allocate sound,
    lower, lowerArc, address, id]

theorem carried_cloneArc (key : Nat) : Carried target s (.cloneArc key) := by
  unfold Carried
  simp only [step, lower, SlotTable.get?_map]
  refine variable_map fun arc found => ?_
  obtain ⟨cell, here, typed⟩ := sound.read_arc found
  have cloned := Arc.clone_eq sound.arranged here
  rw [typed, ← Heap.address_of_read here] at cloned
  simp only [lowerArc, Handles.tagged, Handles.enum, cloned]
  refine pair_map fun heap acquired => ?_
  have lowered := sound.lower_of_acquire (Sound.refs_of_arc found) acquired
  simp only [pure, Except.pure, Except.map, Prod.map, lowered, SlotTable.map_insert,
    lowerArc, id]

theorem carried_dropArc (key : Nat) : Carried target s (.dropArc key) := by
  unfold Carried
  simp only [step, lower, SlotTable.get?_map]
  refine variable_map fun arc found => ?_
  obtain ⟨cell, here, typed⟩ := sound.read_arc found
  have dropped := Arc.drop_eq sound.arranged here arc.type.strategy
  rw [typed, ← Heap.address_of_read here] at dropped
  simp only [lowerArc, Handles.tagged, Handles.enum, dropped]
  refine result_map fun heap released => ?_
  have lowered := sound.lower_of_release (Sound.refs_of_arc found) released
  simp only [pure, Except.pure, Except.map, Prod.map, lowered, SlotTable.map_erase, id]

theorem carried_fromFirst (key : Nat) (second : Ty) :
    Carried target s (.fromFirst key second) := by
  unfold Carried
  simp only [step, lower, SlotTable.get?_map]
  refine variable_map fun arc found => ?_
  obtain ⟨cell, here, typed⟩ := sound.read_arc found
  have made := ArcUnion.fromFirst_eq sound.arranged here
  rw [typed, ← Heap.address_of_read here] at made
  simp only [lowerArc, Handles.tagged, Handles.enum, made, bind, Except.bind, pure,
    Except.pure, Except.map, Prod.map, lower, lowerUnion, UnionEnum.encode,
    SlotTable.map_erase, SlotTable.map_insert, id]

theorem carried_fromSecond (key : Nat) (first : Ty) :
    Carried target s (.fromSecond key first) := by
  unfold Carried
  simp only [step, lower, SlotTable.get?_map]
  refine variable_map fun arc found => ?_
  obtain ⟨cell, here, typed⟩ := sound.read_arc found
  have made := ArcUnion.fromSecond_eq sound.arranged here
  rw [typed, ← Heap.address_of_read here] at made
  simp only [lowerArc, Handles.tagged, Handles.enum, made, bind, Except.bind, pure,
    Except.pure, Except.map, Prod.map, lower, lowerUnion, UnionEnum.encode,
    SlotTable.map_erase, SlotTable.map_insert, id]

theorem carried_isFirst (key : Nat) : Carried target s (.isFirst key) := by
  unfold Carried
  simp only [step, lower, SlotTable.get?_map]
  refine variable_map fun union found => ?_
  obtain ⟨cell, here, typed⟩ := sound.read_union found
  simp only [lowerUnion, Handles.tagged, Handles.enum,
    ArcUnion.isFirst_eq sound.arranged here typed]
  rfl

theorem carried_isSecond (key : Nat) : Carried target s (.isSecond key) := by
  unfold Carried
  simp only [step, lower, SlotTable.get?_map]
  refine variable_map fun union found => ?_
  obtain ⟨cell, here, typed⟩ := sound.read_union found
  simp only [lowerUnion, Handles.tagged, Handles.enum, ArcUnion.isSecond,
    ArcUnion.isFirst_eq sound.arranged here typed]
  cases union.value with
  | first arc => rfl
  | second arc => rfl

theorem carried_borrow (key : Nat) : Carried target s (.borrow key) := by
  unfold Carried
  simp only [step, lower, SlotTable.get?_map]
  refine variable_map fun union found => ?_
  obtain ⟨cell, here, typed⟩ := sound.read_union found
  simp only [lowerUnion, Handles.tagged, Handles.enum,
    ArcUnion.borrow_eq sound.arranged here typed, UnionEnum.borrow_eq here]
  rfl

theorem carried_asFirst (key : Nat) : Carried target s (.asFirst key) := by
  unfold Carried
  simp only [step, lower, SlotTable.get?_map]
  refine variable_map fun union found => ?_
  obtain ⟨cell, here, typed⟩ := sound.read_union found
  simp only [lowerUnion, Handles.tagged, Handles.enum,
    ArcUnion.asFirst_eq sound.arranged here typed]
  exact result_map fun ptr _ => rfl

theorem carried_asSecond (key : Nat) : Carried target s (.asSecond key) := by
  unfold Carried
  simp only [step, lower, SlotTable.get?_map]
  refine variable_map fun union found => ?_
  obtain ⟨cell, here, typed⟩ := sound.read_union found
  simp only [lowerUnion, Handles.tagged, Handles.enum,
    ArcUnion.asSecond_eq sound.arranged here typed]
  exact result_map fun ptr _ => rfl

theorem carried_ptrEq (key other : Nat) : Carried target s (.ptrEq key other) := by
  unfold Carried
  simp only [step, lower, SlotTable.get?_map]
  refine variable_map fun union found => variable_map fun against otherFound => ?_
  refine result_map fun _ demanded => ?_
  simp only [lowerUnion, Handles.tagged, Handles.enum,
    sound.ptrEq_encode found otherFound (demand_eq_ok.mp demanded)]
  rfl

theorem carried_eq (key other : Nat) : Carried target s (.eq key other) := by
  unfold Carried
  simp only [step, lower, SlotTable.get?_map]
  refine variable_map fun union found => variable_map fun against otherFound => ?_
  refine result_map fun _ demanded => ?_
  simp only [lowerUnion, Handles.tagged, Handles.enum,
    sound.eq_encode found otherFound (demand_eq_ok.mp demanded)]
  exact result_map fun same _ => rfl

theorem carried_clone (key : Nat) : Carried target s (.clone key) := by
  unfold Carried
  simp only [step, lower, SlotTable.get?_map]
  refine variable_map fun union found => ?_
  obtain ⟨cell, here, typed⟩ := sound.read_union found
  simp only [lowerUnion, Handles.tagged, Handles.enum,
    ArcUnion.clone_eq sound.arranged here typed]
  refine pair_map fun heap acquired => ?_
  have lowered := sound.lower_of_acquire (Sound.refs_of_union found) acquired
  simp only [pure, Except.pure, Except.map, Prod.map, lowered, SlotTable.map_insert,
    lowerUnion, id]

theorem carried_drop (key : Nat) : Carried target s (.drop key) := by
  unfold Carried
  simp only [step, lower, SlotTable.get?_map]
  refine variable_map fun union found => ?_
  obtain ⟨cell, here, typed⟩ := sound.read_union found
  simp only [lowerUnion, Handles.tagged, Handles.enum,
    ArcUnion.drop_eq sound.arranged here typed]
  refine result_map fun heap released => ?_
  have lowered := sound.lower_of_release (Sound.refs_of_union found) released
  simp only [pure, Except.pure, Except.map, Prod.map, lowered, SlotTable.map_erase, id]

end Carried

/-- Every step of a program is carried to the same step. -/
theorem carries_step :
    Carries (lower target) (Sound (S := S) target) (step target (Handles.enum target))
      (step target (Handles.tagged target)) := by
  intro s action sound
  cases action with
  | newArc type data base => exact carried_newArc sound type data base
  | cloneArc key => exact carried_cloneArc sound key
  | dropArc key => exact carried_dropArc sound key
  | fromFirst key second => exact carried_fromFirst sound key second
  | fromSecond key first => exact carried_fromSecond sound key first
  | isFirst key => exact carried_isFirst sound key
  | isSecond key => exact carried_isSecond sound key
  | borrow key => exact carried_borrow sound key
  | asFirst key => exact carried_asFirst sound key
  | asSecond key => exact carried_asSecond sound key
  | ptrEq key other => exact carried_ptrEq sound key other
  | eq key other => exact carried_eq sound key other
  | clone key => exact carried_clone sound key
  | drop key => exact carried_drop sound key

/-! ## All runs -/

/-- The union under a key is this one, or it was dropped. -/
def Keeps (key : Nat) (union : Var (UnionType Ty S) UnionEnum)
    (s : Program Ty V S Nat UnionEnum) : Prop :=
  key < s.unions.nextKey ∧ ∀ other, s.unions.get? key = some other → other = union

omit [DecidableEq Ty] [DecidableEq S] in
theorem keeps_move {key : Nat} {union : Var (UnionType Ty S) UnionEnum}
    {next : Program Ty V S Nat UnionEnum} (keeps : Keeps key union s)
    (move : Move target s next) : Keeps key union next := by
  obtain ⟨inside, only⟩ := keeps
  have inserted (new : Var (UnionType Ty S) UnionEnum) :
      key < (s.unions.insert new).nextKey ∧
        ∀ other, (s.unions.insert new).get? key = some other → other = union := by
    refine ⟨by simp; omega, fun other found => ?_⟩
    rw [SlotTable.get?_insert, if_neg (Nat.ne_of_lt inside)] at found
    exact only other found
  cases move with
  | same | newArc | cloneArc | dropArc => exact ⟨inside, only⟩
  | wrap key' arc new => exact inserted new
  | clone key' new => exact inserted new
  | drop key' =>
      refine ⟨by simpa using inside, fun other found => ?_⟩
      exact only other (SlotTable.get?_of_erase found)

/-- Later steps leave a union what it is, until it is dropped. -/
theorem union_kept {next : Program Ty V S Nat UnionEnum} {later : List (UnionAction Ty V S)}
    (ends : (run (step target (Handles.enum target)) s later).2 = .ok next) {key : Nat}
    {union after : Var (UnionType Ty S) UnionEnum}
    (found : s.unions.get? key = some union)
    (foundAfter : next.unions.get? key = some after) : after = union := by
  have initial : Keeps key union s :=
    ⟨SlotTable.lt_nextKey found, fun other same => Option.some.inj (same.symm.trans found)⟩
  have kept := run_invariant
    (fun _ _ _ _ keeps stepped => keeps_move keeps (move_of_step stepped)) initial ends
  exact kept.2 after foundAfter

/-- What the program with tagged words does in a state, where `s` is the same
state with the enumeration. -/
structure Faithful (target : Target word Ty V) (s : Program Ty V S Nat UnionEnum) :
    Prop where
  /-- The count of a block is the number of `Arc`s and unions that hold it. -/
  counts : ∀ p, 0 < s.refs p → s.heap.status p = .counted (s.refs p)
  /-- A union stays what it was built as. -/
  kept : ∀ later next, (run (step target (Handles.enum target)) s later).2 = .ok next →
    ∀ key union after, s.unions.get? key = some union →
      next.unions.get? key = some after → after = union
  variant : ∀ key union, s.unions.get? key = some union →
    ArcUnion.isFirst (union.value.encode target s.heap union.type) = union.value.isFirst
  /-- A borrow points where the `Arc` inside points. -/
  borrow : ∀ key union, s.unions.get? key = some union →
    ∃ cell, s.heap.read union.value.block = .ok cell ∧
      cell.ty = union.value.ty union.type ∧
        ArcUnion.borrow target s.heap union.type
            (union.value.encode target s.heap union.type) =
          .ok (union.value.borrowing (Arc.asPtr target cell.ty cell.base))
  ptrEq : ∀ key other union against, s.unions.get? key = some union →
    s.unions.get? other = some against → union.type = against.type →
      (ArcUnion.ptrEq (union.value.encode target s.heap union.type)
          (against.value.encode target s.heap against.type) = true ↔
        union.value.isFirst = against.value.isFirst ∧
          union.value.block = against.value.block)
  eq : ∀ key other union against, s.unions.get? key = some union →
    s.unions.get? other = some against → union.type = against.type →
      ∃ cell otherCell, s.heap.read union.value.block = .ok cell ∧
        s.heap.read against.value.block = .ok otherCell ∧
          ArcUnion.eq target s.heap union.type
              (union.value.encode target s.heap union.type)
              (against.value.encode target s.heap against.type) =
            .ok (union.value.isFirst == against.value.isFirst &&
              target.eq (union.value.ty union.type) cell.data otherCell.data)
  /-- A clone adds one to the count of the same block, or aborts. -/
  clone : ∀ key union, s.unions.get? key = some union →
    if s.refs union.value.block ≤ maxRefcount word then
      ∃ next, step target (Handles.tagged target) (lower target s) (.clone key) =
          .ok (lower target next, .done) ∧
        s.heap.Recounts next.heap union.value.block
          (.counted (s.refs union.value.block + 1))
    else
      step target (Handles.tagged target) (lower target s) (.clone key) = .error .aborted
  /-- A drop removes one, and runs the strategy exactly if it was the last. -/
  drop : ∀ key union, s.unions.get? key = some union →
    ∃ next, step target (Handles.tagged target) (lower target s) (.drop key) =
        .ok (lower target next, .done) ∧
      s.heap.Recounts next.heap union.value.block
        (if s.refs union.value.block = 1 then .freed
          else .counted (s.refs union.value.block - 1)) ∧
      (s.refs union.value.block = 1 →
        next.heap.fateAt union.value.block = some (.backdropped union.type.strategy))

namespace Sound

variable {key : Nat} {union : Var (UnionType Ty S) UnionEnum}

theorem clone_faithful (sound : Sound target s) (found : s.unions.get? key = some union) :
    if s.refs union.value.block ≤ maxRefcount word then
      ∃ next, step target (Handles.tagged target) (lower target s) (.clone key) =
          .ok (lower target next, .done) ∧
        s.heap.Recounts next.heap union.value.block
          (.counted (s.refs union.value.block + 1))
    else
      step target (Handles.tagged target) (lower target s) (.clone key) =
        .error .aborted := by
  have spec := sound.acquire (refs_of_union found)
  have carried : step target (Handles.tagged target) (lower target s) (.clone key) = _ :=
    carried_clone sound key
  rw [carried]
  simp only [step, found, demandSome, bind, Except.bind, Handles.enum]
  split
  · next few =>
      rw [if_pos few] at spec
      obtain ⟨heap, acquired, recounts⟩ := spec
      exact ⟨{ s with heap := heap, unions := s.unions.insert ⟨union.type, union.value⟩ },
        by rw [acquired]; rfl, recounts⟩
  · next many =>
      rw [if_neg many] at spec
      rw [spec]
      rfl

theorem drop_faithful (sound : Sound target s) (found : s.unions.get? key = some union) :
    ∃ next, step target (Handles.tagged target) (lower target s) (.drop key) =
        .ok (lower target next, .done) ∧
      s.heap.Recounts next.heap union.value.block
        (if s.refs union.value.block = 1 then .freed
          else .counted (s.refs union.value.block - 1)) ∧
      (s.refs union.value.block = 1 →
        next.heap.fateAt union.value.block =
          some (.backdropped union.type.strategy)) := by
  obtain ⟨heap, released, recounts, final⟩ :=
    sound.release (refs_of_union found) union.type.strategy
  have carried : step target (Handles.tagged target) (lower target s) (.drop key) = _ :=
    carried_drop sound key
  refine ⟨{ s with heap := heap, unions := s.unions.erase key }, ?_, recounts, final⟩
  rw [carried]
  simp only [step, found, demandSome, bind, Except.bind, Handles.enum, released]
  rfl

/-- In a program whose accounts are in order, the tagged words are faithful. -/
theorem faithful (sound : Sound target s) : Faithful target s where
  counts p held := (sound.status_of_refs held).1
  kept later next ends key union after found foundAfter := union_kept ends found foundAfter
  variant key union found := by
    obtain ⟨cell, here, typed⟩ := sound.read_union found
    exact ArcUnion.isFirst_eq sound.arranged here typed
  borrow key union found := by
    obtain ⟨cell, here, typed⟩ := sound.read_union found
    refine ⟨cell, here, typed, ?_⟩
    rw [Arc.asPtr_eq sound.arranged here]
    exact ArcUnion.borrow_eq sound.arranged here typed
  ptrEq key other union against found otherFound sameType := by
    rw [sound.ptrEq_encode found otherFound sameType, decide_eq_true_iff]
    cases union.value <;> cases against.value <;>
      simp [UnionEnum.isFirst, UnionEnum.block]
  eq key other union against found otherFound sameType := by
    obtain ⟨cell, here, typed⟩ := sound.read_union found
    obtain ⟨otherCell, there, otherTyped⟩ := sound.read_union otherFound
    refine ⟨cell, otherCell, here, there, ?_⟩
    rw [sound.eq_encode found otherFound sameType]
    cases variant : union.value <;> cases otherVariant : against.value <;>
      simp_all [UnionEnum.isFirst, UnionEnum.eq, UnionEnum.dataEq, UnionEnum.block,
        UnionEnum.ty, bind, Except.bind, pure, Except.pure]
  clone key union found := sound.clone_faithful found
  drop key union found := sound.drop_faithful found

end Sound

/-- A program with tagged words shows the same as with the enumeration, ends in
the same state or with the same error, and never accesses what is not a live
block of the right type. -/
theorem union_refines_enum (target : Target word Ty V)
    (actions : List (UnionAction Ty V S)) :
    run (step target (Handles.tagged target)) empty actions =
        Prod.map id (Except.map (lower target))
          (run (step target (Handles.enum target)) empty actions) ∧
      (∀ stop, (run (step target (Handles.tagged target)) empty actions).2 =
        .error stop → ¬ stop.Faulty) ∧
      ∀ s, (run (step target (Handles.enum target)) empty actions).2 = .ok s →
        Faithful target s := by
  have sound : Sound target (empty : Program Ty V S Nat UnionEnum) := sound_empty
  have same := carries_step.run_eq (fun _ _ _ _ sound stepped => sound.stepped stepped)
    actions sound
  have started : lower target (empty : Program Ty V S Nat UnionEnum) = empty := rfl
  rw [started] at same
  refine ⟨same, fun stop ends => ?_, fun s ends => ?_⟩
  · have enumEnds : (run (step target (Handles.enum target)) empty actions).2 =
        .error stop := by
      rw [same] at ends
      cases result : (run (step target (Handles.enum target)) empty actions).2 with
      | error other => simpa [result, Except.map] using ends
      | ok last => simp [result, Except.map] at ends
    exact run_avoids (fun _ _ _ _ sound stepped => sound.stepped stepped)
      (fun _ action stop sound => sound.avoids_step action stop) sound enumEnds
  · exact (run_invariant (fun _ _ _ _ sound stepped => sound.stepped stepped) sound
      ends).faithful

end Program

end BackdropArc
