import BackdropArc.UnionOperations

/-!
# The accounts of a program with unions

In every program with the enumeration, the count of a block is the number of
`Arc`s and unions that hold it, each variable has the type of its block, and a
block that nothing holds is not live.  So no step fails.
-/

namespace BackdropArc

open GuardedRuns

namespace Program

variable {word : MachineWord} {Ty V S : Type} {target : Target word Ty V}
  {s next : Program Ty V S Nat UnionEnum}

def arcRefs (p : Nat) (arc : Var (ArcType Ty S) Nat) : Nat :=
  if arc.value = p then 1 else 0

def unionRefs (p : Nat) (union : Var (UnionType Ty S) UnionEnum) : Nat :=
  if union.value.block = p then 1 else 0

/-- The number of `Arc`s and unions that hold a block. -/
def refs (s : Program Ty V S Nat UnionEnum) (p : Nat) : Nat :=
  s.arcs.weigh (arcRefs p) + s.unions.weigh (unionRefs p)

/-- A count in accordance with the references. -/
def Counts (word : MachineWord) : Status → Nat → Prop
  | .counted count, refs => count = refs ∧ 0 < refs ∧ refs ≤ maxRefcount word + 1
  | .absent, refs | .freed, refs => refs = 0

/-- The block was allocated for a type. -/
def Typed (heap : Heap (Cell Ty V) S) (p : Nat) (ty : Ty) : Prop :=
  ∃ cell, heap.dataAt p = some cell ∧ cell.ty = ty

/-- The accounts of a program are in order. -/
structure Sound (target : Target word Ty V) (s : Program Ty V S Nat UnionEnum) :
    Prop where
  arranged : target.Arranged s.heap
  counts : ∀ p, Counts word (s.heap.status p) (s.refs p)
  arcs : ∀ key arc, s.arcs.get? key = some arc → Typed s.heap arc.value arc.type.ty
  unions : ∀ key union, s.unions.get? key = some union →
    Typed s.heap union.value.block (union.value.ty union.type)

theorem sound_empty : Sound target (empty : Program Ty V S Nat UnionEnum) where
  arranged := ⟨by simp [empty, Heap.read, Heap.access, bind, Except.bind],
    by simp [empty, Heap.read, Heap.access, bind, Except.bind]⟩
  counts p := by simp [empty, Heap.status, Counts, refs]
  arcs key arc found := by simp [empty] at found
  unions key union found := by simp [empty] at found

/-! ## What a variable says about its block -/

namespace Sound

variable {key : Nat}

/-- A block that something holds has the right count. -/
theorem status_of_refs (sound : Sound target s) {p : Nat} (held : 0 < s.refs p) :
    s.heap.status p = .counted (s.refs p) ∧ s.refs p ≤ maxRefcount word + 1 := by
  have counts := sound.counts p
  cases status : s.heap.status p with
  | counted count =>
      rw [status] at counts
      exact ⟨congrArg _ counts.1, counts.2.2⟩
  | absent | freed =>
      rw [status] at counts
      have none : s.refs p = 0 := counts
      omega

theorem refs_of_arc {arc : Var (ArcType Ty S) Nat} (found : s.arcs.get? key = some arc) :
    0 < s.refs arc.value := by
  have weight := SlotTable.le_weigh (arcRefs arc.value) found
  simp only [arcRefs, if_true] at weight
  unfold refs
  omega

theorem refs_of_union {union : Var (UnionType Ty S) UnionEnum}
    (found : s.unions.get? key = some union) : 0 < s.refs union.value.block := by
  have weight := SlotTable.le_weigh (unionRefs union.value.block) found
  simp only [unionRefs, if_true] at weight
  unfold refs
  omega

theorem read_arc (sound : Sound target s) {arc : Var (ArcType Ty S) Nat}
    (found : s.arcs.get? key = some arc) :
    ∃ cell, s.heap.read arc.value = .ok cell ∧ cell.ty = arc.type.ty := by
  have counted := (sound.status_of_refs (refs_of_arc found)).1
  obtain ⟨cell, stored, typed⟩ := sound.arcs key arc found
  exact ⟨cell, Heap.read_eq_ok.mpr ⟨⟨_, counted⟩, stored⟩, typed⟩

theorem read_union (sound : Sound target s) {union : Var (UnionType Ty S) UnionEnum}
    (found : s.unions.get? key = some union) :
    ∃ cell, s.heap.read union.value.block = .ok cell ∧
      cell.ty = union.value.ty union.type := by
  have counted := (sound.status_of_refs (refs_of_union found)).1
  obtain ⟨cell, stored, typed⟩ := sound.unions key union found
  exact ⟨cell, Heap.read_eq_ok.mpr ⟨⟨_, counted⟩, stored⟩, typed⟩

theorem acquire (sound : Sound target s) {p : Nat} (held : 0 < s.refs p) :
    if s.refs p ≤ maxRefcount word then
      ∃ next, s.heap.acquire word p = .ok next ∧
        s.heap.Recounts next p (.counted (s.refs p + 1))
    else s.heap.acquire word p = .error .aborted :=
  Heap.acquire_spec (sound.status_of_refs held).1

theorem release (sound : Sound target s) {p : Nat} (held : 0 < s.refs p) (strategy : S) :
    ∃ next, s.heap.release word p strategy = .ok next ∧
      s.heap.Recounts next p
        (if s.refs p = 1 then .freed else .counted (s.refs p - 1)) ∧
      (s.refs p = 1 → next.fateAt p = some (.backdropped strategy)) := by
  obtain ⟨counted, few⟩ := sound.status_of_refs held
  obtain ⟨others, more⟩ := Nat.exists_eq_succ_of_ne_zero (Nat.ne_of_gt held)
  rw [more] at counted few ⊢
  have fits : others + 1 < word.modulus := by
    rw [word.modulus_eq]
    unfold maxRefcount at few
    omega
  simpa using Heap.release_spec counted fits strategy

end Sound

/-! ## What a step changes -/

/-- The ways in which a step can change a program. -/
inductive Move (target : Target word Ty V) (s : Program Ty V S Nat UnionEnum) :
    Program Ty V S Nat UnionEnum → Prop
  | same : Move target s s
  | newArc (type : ArcType Ty S) (data : V) (base : Nat) :
      target.Vacant s.heap type.ty base →
        Move target s { s with
          heap := s.heap.allocate ⟨base, type.ty, data⟩
          arcs := s.arcs.insert ⟨type, s.heap.length⟩ }
  | cloneArc (key : Nat) (arc : Var (ArcType Ty S) Nat) (heap : Heap (Cell Ty V) S) :
      s.arcs.get? key = some arc → s.heap.acquire word arc.value = .ok heap →
        Move target s { s with heap := heap, arcs := s.arcs.insert arc }
  | dropArc (key : Nat) (arc : Var (ArcType Ty S) Nat) (heap : Heap (Cell Ty V) S) :
      s.arcs.get? key = some arc →
        s.heap.release word arc.value arc.type.strategy = .ok heap →
          Move target s { s with heap := heap, arcs := s.arcs.erase key }
  | wrap (key : Nat) (arc : Var (ArcType Ty S) Nat)
      (union : Var (UnionType Ty S) UnionEnum) :
      s.arcs.get? key = some arc → union.value.block = arc.value →
        union.value.ty union.type = arc.type.ty →
          Move target s { s with
            arcs := s.arcs.erase key, unions := s.unions.insert union }
  | clone (key : Nat) (union : Var (UnionType Ty S) UnionEnum)
      (heap : Heap (Cell Ty V) S) :
      s.unions.get? key = some union →
        s.heap.acquire word union.value.block = .ok heap →
          Move target s { s with heap := heap, unions := s.unions.insert union }
  | drop (key : Nat) (union : Var (UnionType Ty S) UnionEnum)
      (heap : Heap (Cell Ty V) S) :
      s.unions.get? key = some union →
        s.heap.release word union.value.block union.type.strategy = .ok heap →
          Move target s { s with heap := heap, unions := s.unions.erase key }

theorem move_of_step [DecidableEq Ty] [DecidableEq S] {action : UnionAction Ty V S}
    {shown : Shown}
    (stepped : step target (Handles.enum target) s action = .ok (next, shown)) :
    Move target s next := by
  cases action with
  | newArc type data base =>
      obtain ⟨_, vacant, stepped⟩ := bind_eq_ok.mp stepped
      obtain ⟨arc, made, stepped⟩ := bind_eq_ok.mp stepped
      obtain rfl := Except.ok.inj made
      obtain ⟨rfl, _⟩ := Prod.mk.inj (Except.ok.inj stepped)
      exact .newArc type data base (demand_eq_ok.mp vacant)
  | cloneArc key =>
      obtain ⟨arc, found, stepped⟩ := bind_eq_ok.mp stepped
      obtain ⟨result, cloned, stepped⟩ := bind_eq_ok.mp stepped
      obtain ⟨heap, acquired, rfl⟩ := map_eq_ok.mp cloned
      obtain ⟨rfl, _⟩ := Prod.mk.inj (Except.ok.inj stepped)
      exact .cloneArc key arc heap (demandSome_eq_ok.mp found) acquired
  | dropArc key =>
      obtain ⟨arc, found, stepped⟩ := bind_eq_ok.mp stepped
      obtain ⟨heap, released, stepped⟩ := bind_eq_ok.mp stepped
      obtain ⟨rfl, _⟩ := Prod.mk.inj (Except.ok.inj stepped)
      exact .dropArc key arc heap (demandSome_eq_ok.mp found) released
  | fromFirst key | fromSecond key =>
      obtain ⟨arc, found, stepped⟩ := bind_eq_ok.mp stepped
      obtain ⟨union, made, stepped⟩ := bind_eq_ok.mp stepped
      obtain rfl := Except.ok.inj made
      obtain ⟨rfl, _⟩ := Prod.mk.inj (Except.ok.inj stepped)
      exact .wrap key arc _ (demandSome_eq_ok.mp found) rfl rfl
  | isFirst key | isSecond key =>
      obtain ⟨union, found, stepped⟩ := bind_eq_ok.mp stepped
      obtain ⟨rfl, _⟩ := Prod.mk.inj (Except.ok.inj stepped)
      exact .same
  | borrow key | asFirst key | asSecond key =>
      obtain ⟨union, found, stepped⟩ := bind_eq_ok.mp stepped
      obtain ⟨result, computed, stepped⟩ := bind_eq_ok.mp stepped
      obtain ⟨rfl, _⟩ := Prod.mk.inj (Except.ok.inj stepped)
      exact .same
  | ptrEq key other =>
      obtain ⟨union, found, stepped⟩ := bind_eq_ok.mp stepped
      obtain ⟨against, otherFound, stepped⟩ := bind_eq_ok.mp stepped
      obtain ⟨_, sameType, stepped⟩ := bind_eq_ok.mp stepped
      obtain ⟨rfl, _⟩ := Prod.mk.inj (Except.ok.inj stepped)
      exact .same
  | eq key other =>
      obtain ⟨union, found, stepped⟩ := bind_eq_ok.mp stepped
      obtain ⟨against, otherFound, stepped⟩ := bind_eq_ok.mp stepped
      obtain ⟨_, sameType, stepped⟩ := bind_eq_ok.mp stepped
      obtain ⟨result, computed, stepped⟩ := bind_eq_ok.mp stepped
      obtain ⟨rfl, _⟩ := Prod.mk.inj (Except.ok.inj stepped)
      exact .same
  | clone key =>
      obtain ⟨union, found, stepped⟩ := bind_eq_ok.mp stepped
      obtain ⟨result, cloned, stepped⟩ := bind_eq_ok.mp stepped
      obtain ⟨heap, acquired, rfl⟩ := map_eq_ok.mp cloned
      obtain ⟨rfl, _⟩ := Prod.mk.inj (Except.ok.inj stepped)
      exact .clone key union heap (demandSome_eq_ok.mp found) acquired
  | drop key =>
      obtain ⟨union, found, stepped⟩ := bind_eq_ok.mp stepped
      obtain ⟨heap, released, stepped⟩ := bind_eq_ok.mp stepped
      obtain ⟨rfl, _⟩ := Prod.mk.inj (Except.ok.inj stepped)
      exact .drop key union heap (demandSome_eq_ok.mp found) released

/-! ## The accounts stay in order -/

theorem Typed.recounts {heap after : Heap (Cell Ty V) S} {p q : Nat} {status : Status}
    {ty : Ty} (typed : Typed heap q ty) (recounts : heap.Recounts after p status) :
    Typed after q ty := by
  unfold Typed
  rwa [recounts.dataAt_eq]

theorem Typed.allocate {heap : Heap (Cell Ty V) S} {q : Nat} {ty : Ty}
    (typed : Typed heap q ty) (cell : Cell Ty V) : Typed (heap.allocate cell) q ty := by
  obtain ⟨stored, found, same⟩ := typed
  have inside : q < heap.length := by
    by_contra outside
    simp [Heap.dataAt, List.getElem?_eq_none (Nat.le_of_not_lt outside)] at found
  refine ⟨stored, ?_, same⟩
  rw [Heap.dataAt_allocate, if_neg (Nat.ne_of_lt inside), found]

namespace Sound

/-- A change of one count that goes with the references keeps the accounts. -/
theorem recounted (sound : Sound target s) {p : Nat} {after : Status}
    (held : 0 < s.refs p) (recounts : s.heap.Recounts next.heap p after)
    (here : Counts word after (next.refs p))
    (others : ∀ q, q ≠ p → next.refs q = s.refs q)
    (arcs : ∀ key arc, next.arcs.get? key = some arc →
      Typed s.heap arc.value arc.type.ty)
    (unions : ∀ key union, next.unions.get? key = some union →
      Typed s.heap union.value.block (union.value.ty union.type)) :
    Sound target next where
  arranged := sound.arranged.recounts recounts ⟨_, (sound.status_of_refs held).1⟩
  counts q := by
    rw [recounts.changes.status_eq]
    by_cases same : q = p
    · rw [if_pos same, same]
      exact here
    · rw [if_neg same, others q same]
      exact sound.counts q
  arcs key arc found := (arcs key arc found).recounts recounts
  unions key union found := (unions key union found).recounts recounts

theorem arcs_insert (sound : Sound target s) {arc : Var (ArcType Ty S) Nat}
    (typed : Typed s.heap arc.value arc.type.ty) (key : Nat)
    (other : Var (ArcType Ty S) Nat) (found : (s.arcs.insert arc).get? key = some other) :
    Typed s.heap other.value other.type.ty := by
  rcases SlotTable.get?_of_insert found with rfl | found
  · exact typed
  · exact sound.arcs key other found

theorem unions_insert (sound : Sound target s) {union : Var (UnionType Ty S) UnionEnum}
    (typed : Typed s.heap union.value.block (union.value.ty union.type)) (key : Nat)
    (other : Var (UnionType Ty S) UnionEnum)
    (found : (s.unions.insert union).get? key = some other) :
    Typed s.heap other.value.block (other.value.ty other.type) := by
  rcases SlotTable.get?_of_insert found with rfl | found
  · exact typed
  · exact sound.unions key other found

theorem acquired (sound : Sound target s) {p : Nat} (held : 0 < s.refs p)
    (acquired : s.heap.acquire word p = .ok next.heap)
    (refs : ∀ q, next.refs q = s.refs q + if q = p then 1 else 0)
    (arcs : ∀ key arc, next.arcs.get? key = some arc →
      Typed s.heap arc.value arc.type.ty)
    (unions : ∀ key union, next.unions.get? key = some union →
      Typed s.heap union.value.block (union.value.ty union.type)) :
    Sound target next := by
  have spec := sound.acquire held
  split at spec
  · next few =>
      obtain ⟨heap, same, recounts⟩ := spec
      obtain rfl := Except.ok.inj (acquired.symm.trans same)
      refine sound.recounted held recounts ?_ ?_ arcs unions
      · rw [refs, if_pos rfl]
        exact ⟨rfl, Nat.succ_pos _, Nat.succ_le_succ few⟩
      · intro q different
        rw [refs, if_neg different, Nat.add_zero]
  · rw [acquired] at spec
    cases spec

theorem released (sound : Sound target s) {p : Nat} {strategy : S} (held : 0 < s.refs p)
    (released : s.heap.release word p strategy = .ok next.heap)
    (refs : ∀ q, s.refs q = next.refs q + if q = p then 1 else 0)
    (arcs : ∀ key arc, next.arcs.get? key = some arc →
      Typed s.heap arc.value arc.type.ty)
    (unions : ∀ key union, next.unions.get? key = some union →
      Typed s.heap union.value.block (union.value.ty union.type)) :
    Sound target next := by
  obtain ⟨heap, same, recounts, _⟩ := sound.release held strategy
  obtain rfl := Except.ok.inj (released.symm.trans same)
  have bound := (sound.status_of_refs held).2
  have here := refs p
  rw [if_pos rfl] at here
  refine sound.recounted held recounts ?_ ?_ arcs unions
  · rw [here] at bound ⊢
    by_cases last : next.refs p = 0
    · simp [last, Counts]
    · simp [last, Counts]
      omega
  · intro q different
    rw [refs, if_neg different, Nat.add_zero]

theorem newArc (sound : Sound target s) {type : ArcType Ty S} {base : Nat} (data : V)
    (vacant : target.Vacant s.heap type.ty base) :
    Sound target { s with
      heap := s.heap.allocate ⟨base, type.ty, data⟩
      arcs := s.arcs.insert ⟨type, s.heap.length⟩ } where
  arranged := sound.arranged.allocate vacant data
  counts p := by
    obtain ⟨absent, changes⟩ := s.heap.allocate_spec ⟨base, type.ty, data⟩
    have before := sound.counts p
    rw [changes.status_eq]
    by_cases fresh : p = s.heap.length
    · subst fresh
      rw [absent] at before
      have unheld : s.arcs.weigh (arcRefs s.heap.length) +
        s.unions.weigh (unionRefs s.heap.length) = 0 := before
      simp [refs, arcRefs, Counts]
      omega
    · rw [if_neg fresh]
      simpa [refs, arcRefs, Ne.symm fresh] using before
  arcs key arc found := by
    rcases SlotTable.get?_of_insert found with rfl | found
    · exact ⟨_, by rw [Heap.dataAt_allocate, if_pos rfl], rfl⟩
    · exact (sound.arcs key arc found).allocate _
  unions key union found := (sound.unions key union found).allocate _

/-- Putting an `Arc` into a union changes no count. -/
theorem wrap (sound : Sound target s) {key : Nat} {arc : Var (ArcType Ty S) Nat}
    {union : Var (UnionType Ty S) UnionEnum} (found : s.arcs.get? key = some arc)
    (sameBlock : union.value.block = arc.value)
    (sameType : union.value.ty union.type = arc.type.ty) :
    Sound target { s with
      arcs := s.arcs.erase key, unions := s.unions.insert union } where
  arranged := sound.arranged
  counts p := by
    have erased := SlotTable.weigh_erase (arcRefs p) s.arcs key
    rw [SlotTable.weighAt_of_found _ found] at erased
    have moved : unionRefs p union = arcRefs p arc := by
      simp [unionRefs, arcRefs, sameBlock]
    have kept : (s.arcs.erase key).weigh (arcRefs p) +
        (s.unions.insert union).weigh (unionRefs p) = s.refs p := by
      rw [SlotTable.weigh_insert, refs]
      omega
    have before := sound.counts p
    rwa [← kept] at before
  arcs _ _ stored := sound.arcs _ _ (SlotTable.get?_of_erase stored)
  unions := by
    refine sound.unions_insert ?_
    rw [sameBlock, sameType]
    exact sound.arcs key arc found

/-- The accounts stay in order whatever a step changes. -/
theorem moved (sound : Sound target s) (move : Move target s next) :
    Sound target next := by
  cases move with
  | same => exact sound
  | newArc type data base vacant => exact sound.newArc data vacant
  | cloneArc key arc heap found acquired =>
      refine sound.acquired (refs_of_arc found) acquired (fun p => ?_)
        (sound.arcs_insert (sound.arcs key arc found)) sound.unions
      simp only [refs, SlotTable.weigh_insert, arcRefs, eq_comm]
      omega
  | dropArc key arc heap found released =>
      refine sound.released (refs_of_arc found) released (fun p => ?_)
        (fun _ _ stored => sound.arcs _ _ (SlotTable.get?_of_erase stored)) sound.unions
      have erased := SlotTable.weigh_erase (arcRefs p) s.arcs key
      rw [SlotTable.weighAt_of_found _ found] at erased
      have weight : arcRefs p arc = if p = arc.value then 1 else 0 := by
        simp only [arcRefs, eq_comm]
      simp only [refs]
      omega
  | wrap key arc union found sameBlock sameType =>
      exact sound.wrap found sameBlock sameType
  | clone key union heap found acquired =>
      refine sound.acquired (refs_of_union found) acquired (fun p => ?_)
        sound.arcs (sound.unions_insert (sound.unions key union found))
      simp only [refs, SlotTable.weigh_insert, unionRefs, eq_comm]
      omega
  | drop key union heap found released =>
      refine sound.released (refs_of_union found) released (fun p => ?_)
        sound.arcs fun _ _ stored => sound.unions _ _ (SlotTable.get?_of_erase stored)
      have erased := SlotTable.weigh_erase (unionRefs p) s.unions key
      rw [SlotTable.weighAt_of_found _ found] at erased
      have weight : unionRefs p union = if p = union.value.block then 1 else 0 := by
        simp only [unionRefs, eq_comm]
      simp only [refs]
      omega

theorem stepped [DecidableEq Ty] [DecidableEq S] (sound : Sound target s)
    {action : UnionAction Ty V S} {shown : Shown}
    (stepped : step target (Handles.enum target) s action = .ok (next, shown)) :
    Sound target next :=
  sound.moved (move_of_step stepped)

/-! ## No step fails -/

theorem avoids_variable {Value Next : Type} {value? : Option Value}
    {rest : Value → Except Stop Next}
    (avoids : ∀ value, value? = some value → Avoids Stop.Faulty (rest value)) :
    Avoids Stop.Faulty (demandSome value? .refused >>= rest) :=
  (avoids_demandSome Stop.not_faulty_refused).bind fun value found =>
    avoids value (demandSome_eq_ok.mp found)

theorem avoids_acquire (sound : Sound target s) {p : Nat} (held : 0 < s.refs p) :
    Avoids Stop.Faulty (s.heap.acquire word p) :=
  Heap.avoids_acquire (sound.status_of_refs held).1

theorem avoids_release (sound : Sound target s) {p : Nat} (held : 0 < s.refs p)
    (strategy : S) : Avoids Stop.Faulty (s.heap.release word p strategy) := by
  obtain ⟨heap, released, _⟩ := sound.release held strategy
  exact avoids_ok released

theorem avoids_asFirst (sound : Sound target s) {key : Nat}
    {union : Var (UnionType Ty S) UnionEnum} (found : s.unions.get? key = some union) :
    Avoids Stop.Faulty (union.value.asFirst target s.heap) := by
  obtain ⟨cell, here, _⟩ := sound.read_union found
  cases variant : union.value with
  | first arc =>
      rw [variant] at here
      exact (avoids_ok (UnionEnum.dataPtr_eq here)).map _
  | second arc => exact avoids_ok rfl

theorem avoids_asSecond (sound : Sound target s) {key : Nat}
    {union : Var (UnionType Ty S) UnionEnum} (found : s.unions.get? key = some union) :
    Avoids Stop.Faulty (union.value.asSecond target s.heap) := by
  obtain ⟨cell, here, _⟩ := sound.read_union found
  cases variant : union.value with
  | first arc => exact avoids_ok rfl
  | second arc =>
      rw [variant] at here
      exact (avoids_ok (UnionEnum.dataPtr_eq here)).map _

theorem avoids_eq (sound : Sound target s) {key other : Nat} (type : UnionType Ty S)
    {union against : Var (UnionType Ty S) UnionEnum}
    (found : s.unions.get? key = some union)
    (otherFound : s.unions.get? other = some against) :
    Avoids Stop.Faulty (UnionEnum.eq target s.heap type union.value against.value) := by
  obtain ⟨cell, here, _⟩ := sound.read_union found
  obtain ⟨otherCell, there, _⟩ := sound.read_union otherFound
  cases variant : union.value with
  | first arc | second arc =>
      rw [variant] at here
      cases otherVariant : against.value with
      | first arc' | second arc' =>
          rw [otherVariant] at there
          first
          | exact avoids_ok rfl
          | exact (avoids_ok here).bind fun _ _ => (avoids_ok there).bind fun _ _ =>
              avoids_ok rfl

/-- With the accounts in order, a step accesses only live blocks of the right
type. -/
theorem avoids_step [DecidableEq Ty] [DecidableEq S] (sound : Sound target s)
    (action : UnionAction Ty V S) :
    Avoids Stop.Faulty (step target (Handles.enum target) s action) := by
  cases action with
  | newArc type data base =>
      exact (avoids_demand Stop.not_faulty_refused).bind fun _ _ => avoids_ok rfl
  | cloneArc key =>
      exact avoids_variable fun arc found =>
        ((sound.avoids_acquire (refs_of_arc found)).map _).bind fun _ _ => avoids_ok rfl
  | dropArc key =>
      exact avoids_variable fun arc found =>
        (sound.avoids_release (refs_of_arc found) _).bind fun _ _ => avoids_ok rfl
  | fromFirst key | fromSecond key => exact avoids_variable fun arc found => avoids_ok rfl
  | isFirst key | isSecond key => exact avoids_variable fun union found => avoids_ok rfl
  | borrow key =>
      refine avoids_variable fun union found => ?_
      obtain ⟨cell, here, _⟩ := sound.read_union found
      exact (avoids_ok (UnionEnum.borrow_eq here)).bind fun _ _ => avoids_ok rfl
  | asFirst key =>
      exact avoids_variable fun union found =>
        (sound.avoids_asFirst found).bind fun _ _ => avoids_ok rfl
  | asSecond key =>
      exact avoids_variable fun union found =>
        (sound.avoids_asSecond found).bind fun _ _ => avoids_ok rfl
  | ptrEq key other =>
      exact avoids_variable fun union found => avoids_variable fun against otherFound =>
        (avoids_demand Stop.not_faulty_refused).bind fun _ _ => avoids_ok rfl
  | eq key other =>
      exact avoids_variable fun union found => avoids_variable fun against otherFound =>
        (avoids_demand Stop.not_faulty_refused).bind fun _ _ =>
          (sound.avoids_eq _ found otherFound).bind fun _ _ => avoids_ok rfl
  | clone key =>
      exact avoids_variable fun union found =>
        ((sound.avoids_acquire (refs_of_union found)).map _).bind fun _ _ => avoids_ok rfl
  | drop key =>
      exact avoids_variable fun union found =>
        (sound.avoids_release (refs_of_union found) _).bind fun _ _ => avoids_ok rfl

end Sound

end Program

end BackdropArc
