import BackdropArc.PointerForms

/-!
# Comparing handles

`==` and `!=` of two `Arc`s look at the pointers first and at the values only if
the pointers differ; the ordering of `Arc`s, and the comparison of `OffsetArc`s,
of borrowed data and of unions, always look at the values.  The shortcut gives
another answer exactly for two handles to one value that is not equal to
itself.
-/

namespace BackdropArc

open GuardedRuns

/-- The answers of the operators of `PartialEq` and `PartialOrd` on one pair of
operands. -/
structure Comparison where
  eq : Bool
  ne : Bool
  partialCmp : Option Ordering
  lt : Bool
  le : Bool
  gt : Bool
  ge : Bool
  deriving DecidableEq, Repr

namespace Comparison

/-- The contract of `PartialEq` and `PartialOrd`.  It does not ask for
reflexivity. -/
structure Lawful (answers : Comparison) : Prop where
  eq_iff : answers.eq = true ↔ answers.partialCmp = some .eq
  ne_eq : answers.ne = !answers.eq
  lt_iff : answers.lt = true ↔ answers.partialCmp = some .lt
  le_iff : answers.le = true ↔
    answers.partialCmp = some .lt ∨ answers.partialCmp = some .eq
  gt_iff : answers.gt = true ↔ answers.partialCmp = some .gt
  ge_iff : answers.ge = true ↔
    answers.partialCmp = some .gt ∨ answers.partialCmp = some .eq

/-- The default methods, which follow `partial_cmp`. -/
def ofPartialCmp (ordering : Option Ordering) : Comparison where
  eq := ordering = some .eq
  ne := ordering ≠ some .eq
  partialCmp := ordering
  lt := ordering = some .lt
  le := ordering = some .lt ∨ ordering = some .eq
  gt := ordering = some .gt
  ge := ordering = some .gt ∨ ordering = some .eq

theorem ofPartialCmp_lawful (ordering : Option Ordering) :
    (ofPartialCmp ordering).Lawful := by
  constructor <;> simp [ofPartialCmp]

/-- What the test for equal pointers makes of the answers about the values. -/
def shortcut (answers : Comparison) (same : Bool) : Comparison :=
  { answers with eq := same || answers.eq, ne := !same && answers.ne }

/-- The shortcut keeps to the contract exactly where it changes nothing. -/
theorem Lawful.shortcut_iff {answers : Comparison} (lawful : answers.Lawful)
    (same : Bool) :
    (answers.shortcut same).Lawful ↔ same = false ∨ answers.eq = true := by
  constructor
  · intro both
    have eq_iff := both.eq_iff
    have value_iff := lawful.eq_iff
    cases same with
    | false => exact Or.inl rfl
    | true => exact Or.inr (value_iff.mpr (eq_iff.mp rfl))
  · intro agree
    have eq_same : (same || answers.eq) = answers.eq := by
      rcases agree with rfl | equal <;> simp [*]
    have ne_same : (!same && answers.ne) = answers.ne := by
      rw [lawful.ne_eq, ← Bool.not_or, eq_same]
    have unchanged : answers.shortcut same = answers := by
      simp only [shortcut, eq_same, ne_same]
    rwa [unchanged]

end Comparison

/-- A target whose payload types have a `PartialOrd`, with the `==` of their
`PartialEq`. -/
structure OrderedTarget (word : MachineWord) (Ty V : Type) extends Target word Ty V where
  compare : Ty → V → V → Comparison
  eq_compare : ∀ ty a b, (compare ty a b).eq = eq ty a b

/-- The pointer inside an `Arc<T>`: an address, and the type of what lies there,
which for an unsized `T` the metadata of the pointer determines. -/
structure ArcPtr (Ty : Type) where
  p : Nat
  ty : Ty
  deriving DecidableEq, Repr

variable {word : MachineWord} {Ty V S : Type} [DecidableEq Ty]

/-! ## The code -/

section Code

variable (target : OrderedTarget word Ty V) (heap : Heap (Cell Ty V) S)

namespace Arc

/-- `*(*self)`. -/
def deref (this : ArcPtr Ty) : Except Stop V := do
  let cell ← heap.read (← Target.arcInnerAt heap this.ty this.p)
  pure cell.data

def ptrEq (this other : ArcPtr Ty) : Bool :=
  this = other

/-- A comparison of the two values. -/
def compareData {Answer : Type} (method : Comparison → Answer) (this other : ArcPtr Ty) :
    Except Stop Answer := do
  let one ← deref heap this
  let two ← deref heap other
  pure (method (target.compare this.ty one two))

def eq (this other : ArcPtr Ty) : Except Stop Bool :=
  if ptrEq this other then pure true
  else compareData target heap (·.eq) this other

def ne (this other : ArcPtr Ty) : Except Stop Bool :=
  if !ptrEq this other then compareData target heap (·.ne) this other
  else pure false

def partialCmp (this other : ArcPtr Ty) : Except Stop (Option Ordering) :=
  compareData target heap (·.partialCmp) this other

def lt (this other : ArcPtr Ty) : Except Stop Bool :=
  compareData target heap (·.lt) this other

def le (this other : ArcPtr Ty) : Except Stop Bool :=
  compareData target heap (·.le) this other

def gt (this other : ArcPtr Ty) : Except Stop Bool :=
  compareData target heap (·.gt) this other

def ge (this other : ArcPtr Ty) : Except Stop Bool :=
  compareData target heap (·.ge) this other

/-- All operators of `Arc` on the same two handles. -/
def comparison (this other : ArcPtr Ty) : Except Stop Comparison := do
  pure {
    eq := ← eq target heap this other
    ne := ← ne target heap this other
    partialCmp := ← partialCmp target heap this other
    lt := ← lt target heap this other
    le := ← le target heap this other
    gt := ← gt target heap this other
    ge := ← ge target heap this other }

/-- `Borrow::borrow`, a reference to the data. -/
def borrow (this : ArcPtr Ty) : Except Stop (ArcPtr Ty) := do
  let data ← Arc.borrowArc target.toTarget heap this.ty this.p
  pure ⟨data, this.ty⟩

end Arc

/-- `*r` for a reference to data inside an `ArcInner`. -/
def derefData (ref : ArcPtr Ty) : Except Stop V := do
  let cell ← heap.read (← target.dataAt heap ref.ty ref.p)
  pure cell.data

/-- `==` of the values behind two references. -/
def refEq (one other : ArcPtr Ty) : Except Stop Bool := do
  let x ← derefData target heap one
  let y ← derefData target heap other
  pure (target.compare one.ty x y).eq

/-- `PartialEq for OffsetArc`, whose type is sized. -/
def OffsetArc.eq (ty : Ty) (this other : Nat) : Except Stop Bool :=
  refEq target heap ⟨this, ty⟩ ⟨other, ty⟩

end Code

/-! ## Handles to live blocks -/

/-- An `Arc` to the block in `cell`. -/
def Cell.arc (cell : Cell Ty V) : ArcPtr Ty :=
  ⟨cell.base, cell.ty⟩

section Comparisons

variable {target : OrderedTarget word Ty V} {heap : Heap (Cell Ty V) S} {p q : Nat}
  {cell other : Cell Ty V}
  (arranged : target.Arranged heap) (here : heap.read p = .ok cell)

include arranged here

theorem Arc.deref_eq : Arc.deref heap cell.arc = .ok cell.data := by
  exact bind_eq_ok.mpr
    ⟨p, arranged.arcInnerAt_eq here, bind_eq_ok.mpr ⟨cell, here, rfl⟩⟩

theorem derefData_eq :
    derefData target heap ⟨cell.base + target.dataOffset cell.ty, cell.ty⟩ =
      .ok cell.data := by
  exact bind_eq_ok.mpr
    ⟨p, arranged.dataAt_eq here, bind_eq_ok.mpr ⟨cell, here, rfl⟩⟩

theorem Arc.borrow_eq :
    Arc.borrow target heap cell.arc =
      .ok ⟨cell.base + target.dataOffset cell.ty, cell.ty⟩ := by
  unfold borrow
  rw [show Arc.borrowArc target.toTarget heap cell.arc.ty cell.arc.p = _ from
    Arc.borrowArc_eq arranged here]
  rfl

variable (there : heap.read q = .ok other)

include there

theorem Arc.compareData_eq {Answer : Type} (method : Comparison → Answer) :
    Arc.compareData target heap method cell.arc other.arc =
      .ok (method (target.compare cell.ty cell.data other.data)) := by
  unfold compareData
  rw [Arc.deref_eq arranged here, Arc.deref_eq arranged there]
  rfl

theorem refEq_eq :
    refEq target heap ⟨cell.base + target.dataOffset cell.ty, cell.ty⟩
        ⟨other.base + target.dataOffset other.ty, other.ty⟩ =
      .ok (target.compare cell.ty cell.data other.data).eq := by
  unfold refEq
  rw [derefData_eq arranged here, derefData_eq arranged there]
  rfl

/-- Two handles have equal pointers exactly if they share their block. -/
theorem Arc.ptrEq_eq : Arc.ptrEq cell.arc other.arc = decide (p = q) := by
  refine decide_eq_decide.mpr ⟨fun same => ?_, ?_⟩
  · exact arranged.apart p q cell other here there (congrArg ArcPtr.p same)
  · rintro rfl
    rw [Except.ok.inj (here.symm.trans there)]

theorem Arc.eq_eq :
    Arc.eq target heap cell.arc other.arc =
      .ok (decide (p = q) || (target.compare cell.ty cell.data other.data).eq) := by
  unfold eq
  rw [Arc.ptrEq_eq arranged here there]
  by_cases same : p = q
  · simp [same, pure, Except.pure]
  · simp [same, Arc.compareData_eq arranged here there]

theorem Arc.ne_eq :
    Arc.ne target heap cell.arc other.arc =
      .ok (!decide (p = q) && (target.compare cell.ty cell.data other.data).ne) := by
  unfold ne
  rw [Arc.ptrEq_eq arranged here there]
  by_cases same : p = q
  · simp [same, pure, Except.pure]
  · simp [same, Arc.compareData_eq arranged here there]

theorem Arc.comparison_eq :
    Arc.comparison target heap cell.arc other.arc =
      .ok ((target.compare cell.ty cell.data other.data).shortcut (decide (p = q))) := by
  unfold comparison partialCmp lt le gt ge
  simp only [Arc.eq_eq arranged here there, Arc.ne_eq arranged here there,
    Arc.compareData_eq arranged here there]
  rfl

/-- The words of two `Arc`s of one type as unions of the same variant compare
like the values. -/
theorem ArcUnion.eq_first (typed : cell.ty = other.ty) (second : Ty) (strategy : S) :
    ArcUnion.eq target.toTarget heap ⟨cell.ty, second, strategy⟩
        (cell.base + target.dataOffset cell.ty)
        (other.base + target.dataOffset other.ty) =
      .ok (target.compare cell.ty cell.data other.data).eq := by
  have encoded : (UnionEnum.first p).encode target.toTarget heap
      ⟨cell.ty, second, strategy⟩ = cell.base + target.dataOffset cell.ty :=
    UnionEnum.encode_first here rfl
  have otherEncoded : (UnionEnum.first q).encode target.toTarget heap
      ⟨cell.ty, second, strategy⟩ = other.base + target.dataOffset other.ty :=
    UnionEnum.encode_first there typed.symm
  have compared : ArcUnion.eq target.toTarget heap ⟨cell.ty, second, strategy⟩
      ((UnionEnum.first p).encode target.toTarget heap ⟨cell.ty, second, strategy⟩)
      ((UnionEnum.first q).encode target.toTarget heap ⟨cell.ty, second, strategy⟩) = _ :=
    ArcUnion.eq_eq arranged here rfl there typed.symm
  rw [← encoded, ← otherEncoded, compared, target.eq_compare]
  exact bind_eq_ok.mpr ⟨cell, here, bind_eq_ok.mpr ⟨other, there, rfl⟩⟩

theorem ArcUnion.eq_second (typed : cell.ty = other.ty) (first : Ty) (strategy : S) :
    ArcUnion.eq target.toTarget heap ⟨first, cell.ty, strategy⟩
        (cell.base + target.dataOffset cell.ty + 1)
        (other.base + target.dataOffset other.ty + 1) =
      .ok (target.compare cell.ty cell.data other.data).eq := by
  have encoded : (UnionEnum.second p).encode target.toTarget heap
      ⟨first, cell.ty, strategy⟩ = cell.base + target.dataOffset cell.ty + 1 :=
    UnionEnum.encode_second here rfl
  have otherEncoded : (UnionEnum.second q).encode target.toTarget heap
      ⟨first, cell.ty, strategy⟩ = other.base + target.dataOffset other.ty + 1 :=
    UnionEnum.encode_second there typed.symm
  have compared : ArcUnion.eq target.toTarget heap ⟨first, cell.ty, strategy⟩
      ((UnionEnum.second p).encode target.toTarget heap ⟨first, cell.ty, strategy⟩)
      ((UnionEnum.second q).encode target.toTarget heap ⟨first, cell.ty, strategy⟩) = _ :=
    ArcUnion.eq_eq arranged here rfl there typed.symm
  rw [← encoded, ← otherEncoded, compared, target.eq_compare]
  exact bind_eq_ok.mpr ⟨cell, here, bind_eq_ok.mpr ⟨other, there, rfl⟩⟩

end Comparisons

/-- The comparison of two `Arc`s is lawful and agrees with that of the borrowed
values; for a sized type also with that of the `OffsetArc`s and of the unions of
the same variant that are made from the two handles. -/
structure Agrees (target : OrderedTarget word Ty V) (heap : Heap (Cell Ty V) S)
    (this other : ArcPtr Ty) : Prop where
  lawful : ∃ answers, Arc.comparison target heap this other = .ok answers ∧ answers.Lawful
  borrow : ∃ one two, Arc.borrow target heap this = .ok one ∧
    Arc.borrow target heap other = .ok two ∧
      refEq target heap one two = Arc.eq target heap this other
  offsetArc : this.ty = other.ty →
    ∃ one two, Arc.intoRawOffset target.toTarget this.ty this.p = .ok one ∧
      Arc.intoRawOffset target.toTarget other.ty other.p = .ok two ∧
        OffsetArc.eq target heap this.ty one two = Arc.eq target heap this other
  unionFirst : this.ty = other.ty → ∀ second strategy,
    ∃ one two, ArcUnion.fromFirst target.toTarget this.ty this.p = .ok one ∧
      ArcUnion.fromFirst target.toTarget other.ty other.p = .ok two ∧
        ArcUnion.eq target.toTarget heap ⟨this.ty, second, strategy⟩ one two =
          Arc.eq target heap this other
  unionSecond : this.ty = other.ty → ∀ first strategy,
    ∃ one two, ArcUnion.fromSecond target.toTarget this.ty this.p = .ok one ∧
      ArcUnion.fromSecond target.toTarget other.ty other.p = .ok two ∧
        ArcUnion.eq target.toTarget heap ⟨first, this.ty, strategy⟩ one two =
          Arc.eq target heap this other

/-- For every type whose comparison is lawful, whether reflexive or not, and any
two live handles of it: comparing the handles is lawful and agrees with the
other handle types exactly if the handles are in different allocations or their
common value is equal to itself. -/
theorem comparison_agrees_iff {target : OrderedTarget word Ty V}
    {heap : Heap (Cell Ty V) S} {p q : Nat} {cell other : Cell Ty V}
    (arranged : target.Arranged heap) (here : heap.read p = .ok cell)
    (there : heap.read q = .ok other)
    (lawful : ∀ a b, (target.compare cell.ty a b).Lawful) :
    Agrees target heap cell.arc other.arc ↔
      p ≠ q ∨ (target.compare cell.ty cell.data cell.data).eq = true := by
  have answers := Arc.comparison_eq arranged here there
  have eq_answer := Arc.eq_eq arranged here there
  have shortcut_iff := (lawful cell.data other.data).shortcut_iff (decide (p = q))
  have condition : (decide (p = q) = false ∨
      (target.compare cell.ty cell.data other.data).eq = true) ↔
        p ≠ q ∨ (target.compare cell.ty cell.data cell.data).eq = true := by
    by_cases same : p = q
    · subst same
      obtain rfl := Except.ok.inj (here.symm.trans there)
      simp
    · simp [same]
  rw [condition] at shortcut_iff
  constructor
  · rintro ⟨⟨found, computed, lawfulAnswers⟩, _⟩
    obtain rfl := Except.ok.inj (computed.symm.trans answers)
    exact shortcut_iff.mp lawfulAnswers
  · intro agree
    have value_eq : (decide (p = q) || (target.compare cell.ty cell.data other.data).eq) =
        (target.compare cell.ty cell.data other.data).eq := by
      rcases condition.mpr agree with different | equal
      · rw [different, Bool.false_or]
      · rw [equal, Bool.or_true]
    rw [value_eq] at eq_answer
    refine ⟨⟨_, answers, shortcut_iff.mpr agree⟩, ?_, ?_, ?_, ?_⟩
    · refine ⟨_, _, Arc.borrow_eq arranged here, Arc.borrow_eq arranged there, ?_⟩
      rw [refEq_eq arranged here there, eq_answer]
    · intro typed
      refine ⟨_, _, Arc.intoRawOffset_eq arranged here,
        Arc.intoRawOffset_eq arranged there, ?_⟩
      have compared := refEq_eq arranged here there
      rw [show other.ty = cell.ty from typed.symm] at compared ⊢
      rw [eq_answer]
      exact compared
    · intro typed second strategy
      refine ⟨_, _, ArcUnion.fromFirst_eq arranged here,
        ArcUnion.fromFirst_eq arranged there, ?_⟩
      rw [eq_answer]
      exact ArcUnion.eq_first arranged here there typed second strategy
    · intro typed first strategy
      refine ⟨_, _, ArcUnion.fromSecond_eq arranged here,
        ArcUnion.fromSecond_eq arranged there, ?_⟩
      rw [eq_answer]
      exact ArcUnion.eq_second arranged here there typed first strategy

/-- The comparison of numbers with one more value that is not equal to itself,
like a NaN. -/
def compareFloats (a b : Option Nat) : Comparison :=
  .ofPartialCmp (compare <$> a <*> b)

def floats : OrderedTarget .wide Unit (Option Nat) where
  toTarget := .wide wideCount fun a b => (compareFloats a b).eq
  compare _ := compareFloats
  eq_compare _ _ _ := rfl

theorem floats_lawful (a b : Option Nat) : (floats.compare () a b).Lawful :=
  Comparison.ofPartialCmp_lawful _

/-- Two handles to one allocation that holds the value. -/
def sharedFloat (data : Option Nat) : Heap (Cell Unit (Option Nat)) Unit :=
  [{ count := 2, data := ⟨64, (), data⟩, fate := .live, leaked := 0 }]

theorem sharedFloat_arranged (data : Option Nat) :
    floats.Arranged (sharedFloat data) :=
  .single (by decide : floats.Suits () 64)

theorem comparison_agrees_iff_witness :
    Agrees floats (sharedFloat (some 3)) ⟨64, ()⟩ ⟨64, ()⟩ :=
  have here : (sharedFloat (some 3)).read 0 = .ok ⟨64, (), some 3⟩ := rfl
  (comparison_agrees_iff (sharedFloat_arranged _) here here floats_lawful).mpr
    (Or.inr rfl)

/-- Two handles to the same NaN are equal as `Arc`s, but not ordered as equal,
and not equal as borrowed values, as `OffsetArc`s or as unions. -/
theorem equal_handles_of_unequal_value :
    floats.Arranged (sharedFloat none) ∧ (∀ a b, (floats.compare () a b).Lawful) ∧
      Arc.eq floats (sharedFloat none) ⟨64, ()⟩ ⟨64, ()⟩ = .ok true ∧
      Arc.partialCmp floats (sharedFloat none) ⟨64, ()⟩ ⟨64, ()⟩ = .ok none ∧
      Arc.borrow floats (sharedFloat none) ⟨64, ()⟩ = .ok ⟨72, ()⟩ ∧
      refEq floats (sharedFloat none) ⟨72, ()⟩ ⟨72, ()⟩ = .ok false ∧
      Arc.intoRawOffset floats.toTarget () 64 = .ok 72 ∧
      OffsetArc.eq floats (sharedFloat none) () 72 72 = .ok false ∧
      ArcUnion.fromFirst floats.toTarget () 64 = .ok 72 ∧
      ArcUnion.eq floats.toTarget (sharedFloat none) ⟨(), (), ()⟩ 72 72 = .ok false :=
  ⟨sharedFloat_arranged none, floats_lawful, rfl, rfl, rfl, rfl, rfl, rfl, rfl, rfl⟩

end BackdropArc
