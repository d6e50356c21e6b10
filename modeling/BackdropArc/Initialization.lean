import BackdropArc.PointerOrigins

/-!
# Uninitialized data

An `Arc<MaybeUninit<T>>` points to slots that may be empty, and `assume_init`
promises that they are not.  The promise is part of a handle's type, as the
strategy is, so it travels with every pointer that is made from the handle.  If
each call of `assume_init` keeps its contract, every pointer with the promise
leads to filled slots, whatever the handles without the promise do.
-/

namespace BackdropArc

open GuardedRuns

/-- Whether the type of a handle promises that the data is initialized: `Arc<T>`
does, and `Arc<MaybeUninit<T>>` does not. -/
inductive Typing
  | uninit
  | init
  deriving DecidableEq, Repr

/-- The data of a `[MaybeUninit<T>]`; a `MaybeUninit<T>` is a single slot. -/
abbrev Slots (D : Type) :=
  List (Option D)

def Slots.full {D : Type} (slots : Slots D) : Bool :=
  slots.all Option.isSome

/-- A program whose handles are typed, under strategies from `S`. -/
abbrev TypedSys (N : Nat) (D S : Type) :=
  Sys N (Slots D) (Typing × S)

inductive TypedAct (N : Nat) (D S : Type)
  | plain (act : Act N (Slots D) (Typing × S))
  /-- `UniqueArc::new_uninit_slice`, and for one slot `UniqueArc::new_uninit`. -/
  | newUninit (len : Nat) (strategy : S)
  /-- `UniqueArc::write`, or `MaybeUninit::write` on an element of the slice. -/
  | writeSlot (key i : Nat) (item : D)
  /-- `assume_init` and `assume_init_slice` of `Arc` and `UniqueArc`. -/
  | assumeInit (key : Nat)
  deriving DecidableEq

variable {N : Nat} {D S : Type}

/-- A step of a program with typed handles. -/
def typedStep (word : MachineWord) (s : TypedSys N D S) (move : Fin N × TypedAct N D S) :
    Except Stop (TypedSys N D S) :=
  match move.2 with
  | .plain act => step word s (move.1, act)
  | .newUninit len strategy =>
      step word s (move.1, .newUnique (List.replicate len none) (.uninit, strategy))
  | .writeSlot key i item => do
      let hd ← demandSome (s.handles.get? key) .refused
      demand (hd.strategy.1 = .uninit) .refused
      let data ← s.heap.read hd.p
      -- an index out of bounds panics before anything is written
      demand (i < data.length) .refused
      step word s (move.1, .write key (data.set i (some item)))
  | .assumeInit key =>
      match (s.threads move.1).op with
      | .idle => do
          let hd ← s.free key
          demand (hd.strategy.1 = .uninit) .refused
          demand (hd.form = .arc ∨ hd.form = .uniqueArc) .refused
          -- the pointer is cast, nothing is written
          pure { s with
            handles := s.handles.replace key { hd with strategy := (.init, hd.strategy.2) } }
      | _ => .error .refused

namespace Sys

/-- Data may be put where the type allows it. -/
def allowed (type : Typing × S) (data : Slots D) : Bool :=
  type.1 = .uninit || data.full

/-- What the type checker demands: data for `T` is initialized, and no conversion
of the crate turns `MaybeUninit<T>` into `T`. -/
def wellTyped (s : TypedSys N D S) (t : Fin N) : Act N (Slots D) (Typing × S) → Bool
  | .new data type | .newUnique data type => allowed type data
  | .write key data => (s.handles.get? key).all fun hd => allowed hd.strategy data
  | .cloneReturns data =>
      match (s.threads t).stack with
      | .valueClone _ ptr :: _ => allowed ptr.strategy data
      | _ => true
  | .clone source (.borrowCloneArc type) | .enter source (.borrowWithArc type) =>
      (s.view source).all fun viewed => (s.handles.get? viewed.1.root).all fun hd =>
        hd.strategy.1 = type.1
  | .convert key (.withStrategy type) | .convert key (.fromRaw type) =>
      (s.handles.get? key).all fun hd => hd.strategy.1 = type.1
  | _ => true

/-- The steps of a program that is well typed and keeps the contract of
`assume_init`. -/
def Honest (s : TypedSys N D S) (move : Fin N × TypedAct N D S) : Prop :=
  match move.2 with
  | .plain act => s.Keeps (move.1, act) ∧ s.wellTyped move.1 act = true
  | .assumeInit key =>
      ((s.handles.get? key).all fun hd => (s.heap.dataAt hd.p).all Slots.full) = true
  | .newUninit _ _ | .writeSlot _ _ _ => True

instance (s : TypedSys N D S) (move : Fin N × TypedAct N D S) : Decidable (s.Honest move) :=
  match move with
  | (t, .plain act) => inferInstanceAs (Decidable (s.Keeps (t, act) ∧ s.wellTyped t act = true))
  | (_, .assumeInit key) => inferInstanceAs (Decidable
      (((s.handles.get? key).all fun hd => (s.heap.dataAt hd.p).all Slots.full) = true))
  | (_, .newUninit _ _) | (_, .writeSlot _ _ _) => inferInstanceAs (Decidable True)

/-- What the type of the pointer promises is true. -/
def Initialized (heap : Heap (Slots D) (Typing × S)) (ptr : Pointer (Typing × S)) : Prop :=
  ptr.strategy.1 = .init → ∃ data, heap.dataAt ptr.p = some data ∧ data.full = true

section Alone

variable {V : Type} {s : Sys N V S} {key : Nat} {hd : Handle S} {t : Fin N}

theorem refs_of_rest {rest : Rest V S} {ptr : Pointer S} (here : ptr ∈ rest.pointers) :
    rest.refs ptr.p = 1 := by
  cases rest with
  | grant call other =>
      obtain rfl := List.mem_singleton.mp here
      exact pointer_refs_self ptr
  | done | value | unwind => cases here

/-- A pointer of a call in progress borrows its block, owns a reference to it,
or is about to dispose of it. -/
theorem op_cases {ptr : Pointer S} (here : ptr ∈ (s.threads t).op.pointers) :
    (∃ borrow, s.Borrows borrow ∧ borrow.p = ptr.p) ∨
      0 < (s.threads t).op.refs ptr.p ∨ s.Finishing ptr.p (t, ptr.strategy) := by
  cases op : (s.threads t).op with
  | idle => simp [op, Op.pointers] at here
  | cloning source | cloned source =>
      rw [op] at here
      obtain rfl := List.mem_singleton.mp here
      exact Or.inl ⟨source, Or.inr (Or.inr ⟨t, Or.inl (by rw [op]; rfl)⟩), rfl⟩
  | tested _ other | moving other =>
      rw [op] at here
      obtain rfl := List.mem_singleton.mp here
      exact Or.inr (Or.inl (by simp [Op.refs]))
  | dropping other rest =>
      rw [op] at here
      rcases List.mem_cons.mp here with rfl | left
      · exact Or.inr (Or.inl (by simp [Op.refs]))
      · exact Or.inr (Or.inl (by simp [Op.refs, refs_of_rest left]))
  | dropLoad other rest | dropSlow other rest =>
      rw [op] at here
      rcases List.mem_cons.mp here with rfl | left
      · exact Or.inr (Or.inr (by rw [Finishing, op]; rfl))
      · exact Or.inr (Or.inl (by simp [Op.refs, refs_of_rest left]))

theorem call_cases {call : Call S} (member : call ∈ (s.threads t).stack) {ptr : Pointer S}
    (here : ptr ∈ call.pointers) :
    (∃ borrow, s.Borrows borrow ∧ borrow.p = ptr.p) ∨ 0 < (s.threads t).refs ptr.p := by
  cases call with
  | callback source transient =>
      obtain ⟨_, _, rfl⟩ := List.mem_map.mp here
      exact Or.inl ⟨source, Or.inr (Or.inr ⟨t, Or.inr ⟨_, member, rfl⟩⟩), rfl⟩
  | valueClone call other =>
      obtain rfl := List.mem_singleton.mp here
      have owed : Call.refs ptr.p (.valueClone call ptr) = 1 := pointer_refs_self ptr
      have all := List.single_le_sum (fun _ _ => Nat.zero_le _) _
        (List.mem_map_of_mem (f := Call.refs ptr.p) member)
      unfold Thread.refs
      omega

/-- A handle that stands for sole ownership is the only pointer to its block. -/
theorem Sound.within_alone (sound : s.Sound) (found : s.handles.get? key = some hd)
    (sole : hd.sole = true) : s.Within fun ptr => ptr.p = hd.p → ptr = hd.toPointer := by
  have alone := sound.alone found sole
  have unowned (t : Fin N) : (s.threads t).refs hd.p = 0 := by
    have owned := refs_le_inFlight s t hd.p
    rw [alone.inFlight] at owned
    omega
  constructor
  case handles =>
    intro other stored here same
    obtain rfl := alone.handles other stored here same
    obtain rfl := Option.some.inj (found.symm.trans here)
    rfl
  case iters =>
    intro other iter here same
    exact absurd same (alone.borrows iter.orig (Or.inr (Or.inl ⟨other, iter, here, rfl⟩)))
  case ops =>
    intro t ptr here same
    exfalso
    have owned := op_refs_le (s.threads t) hd.p
    have none := unowned t
    rcases op_cases here with ⟨borrow, alive, there⟩ | refs | finishing
    · exact alone.borrows borrow alive (there.trans same)
    · rw [same] at refs
      omega
    · have pending := (sound.of_finishing finishing).1
      rw [same, alone.counted] at pending
      cases pending
  case calls =>
    intro t call member ptr here same
    exfalso
    have none := unowned t
    rcases call_cases member here with ⟨borrow, alive, there⟩ | refs
    · exact alone.borrows borrow alive (there.trans same)
    · rw [same] at refs
      omega

end Alone

theorem Within.and {V : Type} {s : Sys N V S} {P Q : Pointer S → Prop} (first : s.Within P)
    (second : s.Within Q) : s.Within fun ptr => P ptr ∧ Q ptr where
  handles key hd found := ⟨first.handles key hd found, second.handles key hd found⟩
  iters key iter found := ⟨first.iters key iter found, second.iters key iter found⟩
  ops t ptr here := ⟨first.ops t ptr here, second.ops t ptr here⟩
  calls t call member ptr here :=
    ⟨first.calls t call member ptr here, second.calls t call member ptr here⟩

variable {s next : TypedSys N D S} {t : Fin N} {word : MachineWord} {key : Nat}
  {hd : Handle (Typing × S)}

theorem initialized_of_allowed {heap : Heap (Slots D) (Typing × S)} {p : Nat}
    {type : Typing × S} {data : Slots D} (fits : allowed type data = true)
    (here : heap.dataAt p = some data) : Initialized heap ⟨p, type⟩ := by
  intro (promised : type.1 = .init)
  refine ⟨data, here, ?_⟩
  simpa [allowed, promised] using fits

theorem Initialized.retype {heap : Heap (Slots D) (Typing × S)} {p : Nat}
    {type type' : Typing × S} (holds : Initialized heap ⟨p, type⟩) (same : type.1 = type'.1) :
    Initialized heap ⟨p, type'⟩ :=
  fun promised => holds (same.trans promised)

/-- A step that does not write keeps every promise. -/
theorem Initialized.kept {move : Fin N × Act N (Slots D) (Typing × S)}
    {ptr : Pointer (Typing × S)} (holds : Initialized s.heap ptr)
    (stepped : step word s move = .ok next) (unwritten : s.writesTo ptr.p move.2 = false) :
    Initialized next.heap ptr := by
  intro promised
  obtain ⟨data, here, filled⟩ := holds promised
  exact ⟨data, dataAt_of_step stepped here unwritten, filled⟩

/-- A write keeps every promise: nobody else sees the block. -/
theorem Within.written (within : s.Within (Initialized s.heap)) (sound : s.Sound)
    (found : s.handles.get? key = some hd) (sole : hd.sole = true) {data : Slots D}
    {heap : Heap (Slots D) (Typing × S)} (written : s.heap.write hd.p data = .ok heap)
    (fits : allowed hd.strategy data = true) : s.Within (Initialized heap) := by
  apply (within.and (sound.within_alone found sole)).mono
  rintro ptr ⟨holds, alone⟩
  by_cases same : ptr.p = hd.p
  · obtain rfl := alone same
    apply initialized_of_allowed fits
    rw [Heap.write_dataAt written, if_pos rfl]
  · intro promised
    obtain ⟨data', here, filled⟩ := holds promised
    exact ⟨data', by rwa [Heap.write_dataAt written, if_neg same], filled⟩

/-- The borrow's handle has the type that the conversion keeps. -/
theorem Within.borrowed (within : s.Within (Initialized s.heap)) (sound : s.Sound)
    {source : Source N} {borrow : Borrow} {kind : RefKind (Typing × S)} {type : Typing × S}
    (viewed : s.view source = some (borrow, kind))
    (typed : (s.handles.get? borrow.root).all fun hd => hd.strategy.1 = type.1) :
    Initialized s.heap ⟨borrow.p, type⟩ := by
  obtain ⟨hd, found, same, _⟩ := sound.roots_of_view viewed
  have holds := within.handles _ hd found
  rw [← same]
  apply Initialized.retype holds
  simpa [found] using typed

/-- What a well-typed step introduces keeps its promise. -/
theorem Within.fresh (within : s.Within (Initialized s.heap)) (sound : s.Sound)
    {act : Act N (Slots D) (Typing × S)} (called : Called word s t act next)
    (typed : s.wellTyped t act = true) {ptr : Pointer (Typing × S)}
    (makes : s.introduces (t, act) = some ptr) : Initialized next.heap ptr := by
  have allocated (data : Slots D) : (s.heap.allocate data).dataAt s.heap.length = some data := by
    rw [Heap.dataAt_allocate, if_pos rfl]
  cases called with
  | new data | newUnique data =>
      obtain rfl := Option.some.inj makes
      exact initialized_of_allowed typed (allocated data)
  | @clone source call borrow kind form strategy viewed =>
      cases call with
      | clone | offsetCloneArc => cases makes
      | borrowCloneArc type =>
          simp only [introduces, viewed, Option.map_some, Option.some.injEq] at makes
          simp only [wellTyped, viewed, Option.all_some] at typed
          exact makes ▸ within.borrowed sound viewed typed
  | @enter source call borrow kind transient viewed =>
      cases call with
      | offsetWithArc | withRawOffsetArc => cases makes
      | borrowWithArc type =>
          simp only [introduces, viewed, Option.map_some, Option.some.injEq] at makes
          simp only [wellTyped, viewed, Option.all_some] at typed
          exact makes ▸ within.borrowed sound viewed typed
  | @convert key conversion hd converted freed =>
      have found := (free_eq_ok.mp freed).1
      have holds := within.handles key hd found
      cases conversion with
      | withStrategy type | fromRaw type =>
          simp only [introduces, found, Option.map_some, Option.some.injEq] at makes
          obtain rfl := makes
          apply Initialized.retype holds
          simpa [wellTyped, found] using typed
      | _ => cases makes
  | unwrappedClone suspended => simp [introduces, suspended] at makes
  | @copyMade data call other stack suspended different =>
      have copy : ptr = ⟨s.heap.length, other.strategy⟩ := by
        cases call <;> simp [introduces, suspended] at different makes <;> exact makes.symm
      subst copy
      apply initialized_of_allowed _ (allocated data)
      simpa [wellTyped, suspended] using typed
  | _ => cases makes

/-- A well-typed step of the crate keeps all promises. -/
theorem Within.plain (within : s.Within (Initialized s.heap)) (sound : s.Sound)
    {act : Act N (Slots D) (Typing × S)} (stepped : step word s (t, act) = .ok next)
    (typed : s.wellTyped t act = true) : next.Within (Initialized next.heap) := by
  by_cases writes : ∃ key data, act = .write key data
  · obtain ⟨key, data, rfl⟩ := writes
    rcases step_cases stepped with ⟨wrong, _⟩ | ⟨_, called⟩
    · cases wrong
    · cases called with
      | @write _ _ hd heap found sole written =>
          have fits : allowed hd.strategy data = true := by simpa [wellTyped, found] using typed
          exact (within.written sound found sole written fits).reheap heap _
  · have unwritten (p : Nat) : s.writesTo p act = false := by
      cases act with
      | write key data => exact absurd ⟨key, data, rfl⟩ writes
      | _ => rfl
    have kept := within.mono fun ptr holds => holds.kept stepped (unwritten ptr.p)
    rcases step_cases stepped with ⟨rfl, advanced⟩ | ⟨_, called⟩
    · exact kept.advanced advanced
    · exact kept.called called fun ptr makes => within.fresh sound called typed makes

/-! ## The run -/

theorem assumeInit_spec (stepped : typedStep word s (t, .assumeInit key) = .ok next) :
    ∃ hd, s.free key = .ok hd ∧ hd.strategy.1 = .uninit ∧
      (hd.form = .arc ∨ hd.form = .uniqueArc) ∧ next = { s with
        handles := s.handles.replace key { hd with strategy := (.init, hd.strategy.2) } } := by
  unfold typedStep at stepped
  simp only at stepped
  split at stepped
  · obtain ⟨hd, freed, rest⟩ := bind_eq_ok.mp stepped
    obtain ⟨_, uninit, rest⟩ := bind_eq_ok.mp rest
    obtain ⟨_, form, result⟩ := bind_eq_ok.mp rest
    exact ⟨hd, freed, demand_eq_ok.mp uninit, demand_eq_ok.mp form,
      (Except.ok.inj result).symm⟩
  · cases stepped

theorem writeSlot_spec {i : Nat} {item : D}
    (stepped : typedStep word s (t, .writeSlot key i item) = .ok next) :
    ∃ hd data, s.handles.get? key = some hd ∧ hd.strategy.1 = .uninit ∧
      s.heap.read hd.p = .ok data ∧ i < data.length ∧
        step word s (t, .write key (data.set i (some item))) = .ok next := by
  obtain ⟨hd, found, rest⟩ := bind_eq_ok.mp stepped
  obtain ⟨_, uninit, rest⟩ := bind_eq_ok.mp rest
  obtain ⟨data, read, rest⟩ := bind_eq_ok.mp rest
  obtain ⟨_, inside, written⟩ := bind_eq_ok.mp rest
  exact ⟨hd, data, demandSome_eq_ok.mp found, demand_eq_ok.mp uninit, read,
    demand_eq_ok.mp inside, written⟩

/-- A step of a typed program is a step of the crate, or changes the type of one
handle. -/
theorem typedStep_cases {move : Fin N × TypedAct N D S}
    (stepped : typedStep word s move = .ok next) (honest : s.Honest move) :
    (∃ act, s.Keeps (move.1, act) ∧ s.wellTyped move.1 act = true ∧
      step word s (move.1, act) = .ok next) ∨
      ∃ key, move.2 = .assumeInit key := by
  obtain ⟨t, act⟩ := move
  cases act with
  | plain act => exact Or.inl ⟨act, honest.1, honest.2, stepped⟩
  | newUninit len strategy => exact Or.inl ⟨_, ⟨rfl, rfl⟩, rfl, stepped⟩
  | writeSlot key i item =>
      obtain ⟨hd, data, found, uninit, _, _, written⟩ := writeSlot_spec stepped
      refine Or.inl ⟨_, ⟨rfl, rfl⟩, ?_, written⟩
      simp [wellTyped, found, allowed, uninit]
  | assumeInit key => exact Or.inr ⟨key, rfl⟩

theorem Sound.assumeInit (sound : s.Sound)
    (stepped : typedStep word s (t, .assumeInit key) = .ok next) : next.Sound := by
  obtain ⟨hd, freed, _, _, rfl⟩ := assumeInit_spec stepped
  obtain ⟨found, _, unborrowed⟩ := free_eq_ok.mp freed
  apply sound.replaceHandle t found
  · rfl
  · exact id
  · intro borrow alive root
    exact absurd root (not_borrowed unborrowed alive)

theorem Within.assumeInit (within : s.Within (Initialized s.heap)) (sound : s.Sound)
    (honest : s.Honest (t, .assumeInit key))
    (stepped : typedStep word s (t, .assumeInit key) = .ok next) :
    next.Within (Initialized next.heap) := by
  obtain ⟨hd, freed, _, _, rfl⟩ := assumeInit_spec stepped
  have found := (free_eq_ok.mp freed).1
  apply within.replace found
  intro _
  obtain ⟨block, accessed, _⟩ :=
    Heap.access_of_counted (sound.counted_of_owned (owned_of_stored found))
  have here : s.heap.dataAt hd.p = some block.data := by
    simp [Heap.dataAt, (Heap.access_eq_ok.mp accessed).1]
  refine ⟨block.data, here, ?_⟩
  simpa [Honest, found, here] using honest

/-- The step lemma of typed programs. -/
theorem Within.typedStepped (within : s.Within (Initialized s.heap)) (sound : s.Sound)
    {move : Fin N × TypedAct N D S} (honest : s.Honest move)
    (stepped : typedStep word s move = .ok next) : next.Within (Initialized next.heap) := by
  rcases typedStep_cases stepped honest with ⟨act, _, typed, plain⟩ | ⟨key, same⟩
  · exact within.plain sound plain typed
  · obtain ⟨t, act⟩ := move
    obtain rfl : act = .assumeInit key := same
    exact within.assumeInit sound honest stepped

theorem Sound.typedStepped (sound : s.Sound) (limit : s.WithinLimit word)
    (few : N < word.isizeMax) {move : Fin N × TypedAct N D S} (honest : s.Honest move)
    (stepped : typedStep word s move = .ok next) : next.Sound ∧ next.WithinLimit word := by
  rcases typedStep_cases stepped honest with ⟨act, keeps, _, plain⟩ | ⟨key, same⟩
  · exact ⟨sound.stepped (limit.roomy few) keeps plain, limit.stepped sound plain⟩
  · obtain ⟨t, act⟩ := move
    obtain rfl : act = .assumeInit key := same
    refine ⟨sound.assumeInit stepped, ?_⟩
    obtain ⟨hd, _, _, _, rfl⟩ := assumeInit_spec stepped
    exact limit

end Sys

end BackdropArc
