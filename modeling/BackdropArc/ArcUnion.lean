import BackdropArc.LockstepRuns
import BackdropArc.PlacedHeap
import BackdropArc.SlotTable

/-!
# Tagged unions of `Arc`s

An `ArcUnion<A, B>` is one word: the address of the data of an `Arc<A>`, or that
of an `Arc<B>` with its lowest bit set.  The same programs can be run with
unions that are an enumeration with two variants, whose `Arc`s name their block
instead of its address.
-/

namespace BackdropArc

open GuardedRuns

/-- The parameters of `Arc<T, S>`. -/
structure ArcType (Ty S : Type) where
  ty : Ty
  strategy : S
  deriving DecidableEq, Repr

/-- The parameters of `ArcUnion<A, B, S>`. -/
structure UnionType (Ty S : Type) where
  first : Ty
  second : Ty
  strategy : S
  deriving DecidableEq, Repr

/-- What `borrow` returns: an `ArcBorrow` is the address of the data. -/
inductive ArcUnionBorrow
  | first (ptr : Nat)
  | second (ptr : Nat)
  deriving DecidableEq, Repr

/-! ## The code -/

section Code

variable {word : MachineWord} {Ty V S : Type} [DecidableEq Ty]
  (target : Target word Ty V) (heap : Heap (Cell Ty V) S)

def newUnchecked (ptr : Nat) : Except Stop Nat := do
  demand (ptr ≠ 0) .assertionFailed
  pure ptr

namespace Arc

/-- `Arc::as_ptr`, the result of `Arc::into_raw`. -/
def asPtr (ty : Ty) (p : Nat) : Nat :=
  word.wrappingAdd p (target.dataOffset ty)

def fromRaw (ty : Ty) (ptr : Nat) : Except Stop Nat :=
  newUnchecked (word.wrappingSub ptr (target.dataOffset ty))

def clone (word : MachineWord) (ty : Ty) (p : Nat) :
    Except Stop (Nat × Heap (Cell Ty V) S) := do
  let block ← Target.arcInnerAt heap ty p
  let heap ← heap.acquire word block
  let arc ← newUnchecked p
  pure (arc, heap)

def drop (word : MachineWord) (type : ArcType Ty S) (p : Nat) :
    Except Stop (Heap (Cell Ty V) S) := do
  let block ← Target.arcInnerAt heap type.ty p
  heap.release word block type.strategy

end Arc

namespace ArcBorrow

/-- `ArcBorrow::from_ref(&*ptr)`. -/
def fromRef (ty : Ty) (ptr : Nat) : Except Stop Nat := do
  let _ ← target.dataAt heap ty ptr
  pure ptr

def cloneArc (ty : Ty) (ptr : Nat) : Except Stop (Nat × Heap (Cell Ty V) S) := do
  let arc ← Arc.fromRaw target ty ptr
  -- the clone is forgotten, so that `arc` has the reference it counted
  let (_, heap) ← Arc.clone heap word ty arc
  pure (arc, heap)

/-- The derived `PartialEq for ArcBorrow` compares the data. -/
def eq (ty : Ty) (x y : Nat) : Except Stop Bool := do
  let one ← heap.read (← target.dataAt heap ty x)
  let two ← heap.read (← target.dataAt heap ty y)
  pure (target.eq ty one.data two.data)

end ArcBorrow

namespace ArcUnion

def fromFirst (ty : Ty) (other : Nat) : Except Stop Nat :=
  newUnchecked (Arc.asPtr target ty other)

def fromSecond (ty : Ty) (other : Nat) : Except Stop Nat :=
  newUnchecked (Arc.asPtr target ty other ||| 0x1)

def isFirst (p : Nat) : Bool :=
  p &&& 0x1 = 0

def isSecond (p : Nat) : Bool :=
  !isFirst p

def borrow (type : UnionType Ty S) (p : Nat) : Except Stop ArcUnionBorrow :=
  if isFirst p then do
    let borrow ← ArcBorrow.fromRef target heap type.first p
    pure (.first borrow)
  else do
    let ptr := p &&& word.complement 0x1
    let borrow ← ArcBorrow.fromRef target heap type.second ptr
    pure (.second borrow)

def asFirst (type : UnionType Ty S) (p : Nat) : Except Stop (Option Nat) := do
  match ← borrow target heap type p with
  | .first x => pure (some x)
  | .second _ => pure none

def asSecond (type : UnionType Ty S) (p : Nat) : Except Stop (Option Nat) := do
  match ← borrow target heap type p with
  | .first _ => pure none
  | .second x => pure (some x)

def ptrEq (p other : Nat) : Bool :=
  p = other

/-- `PartialEq for ArcUnion`. -/
def eq (type : UnionType Ty S) (p other : Nat) : Except Stop Bool := do
  match ← borrow target heap type p, ← borrow target heap type other with
  | .first x, .first y => ArcBorrow.eq target heap type.first x y
  | .second x, .second y => ArcBorrow.eq target heap type.second x y
  | _, _ => pure false

def clone (type : UnionType Ty S) (p : Nat) :
    Except Stop (Nat × Heap (Cell Ty V) S) := do
  match ← borrow target heap type p with
  | .first x =>
      let (arc, heap) ← ArcBorrow.cloneArc target heap type.first x
      pure (← fromFirst target type.first arc, heap)
  | .second x =>
      let (arc, heap) ← ArcBorrow.cloneArc target heap type.second x
      pure (← fromSecond target type.second arc, heap)

def drop (type : UnionType Ty S) (p : Nat) : Except Stop (Heap (Cell Ty V) S) := do
  match ← borrow target heap type p with
  | .first x =>
      Arc.drop heap word ⟨type.first, type.strategy⟩ (← Arc.fromRaw target type.first x)
  | .second x =>
      Arc.drop heap word ⟨type.second, type.strategy⟩ (← Arc.fromRaw target type.second x)

end ArcUnion

end Code

/-! ## The enumeration -/

/-- `enum { First(Arc<A>), Second(Arc<B>) }`. -/
inductive UnionEnum
  | first (arc : Nat)
  | second (arc : Nat)
  deriving DecidableEq, Repr

namespace UnionEnum

def block : UnionEnum → Nat
  | .first arc | .second arc => arc

def ty {Ty S : Type} (type : UnionType Ty S) : UnionEnum → Ty
  | .first _ => type.first
  | .second _ => type.second

def isFirst : UnionEnum → Bool
  | .first _ => true
  | .second _ => false

def isSecond : UnionEnum → Bool
  | .first _ => false
  | .second _ => true

variable {word : MachineWord} {Ty V S : Type}
  (target : Target word Ty V) (heap : Heap (Cell Ty V) S)

def dataPtr (arc : Nat) : Except Stop Nat := do
  let cell ← heap.read arc
  pure (cell.base + target.dataOffset cell.ty)

def borrow : UnionEnum → Except Stop ArcUnionBorrow
  | .first arc => ArcUnionBorrow.first <$> dataPtr target heap arc
  | .second arc => ArcUnionBorrow.second <$> dataPtr target heap arc

def asFirst : UnionEnum → Except Stop (Option Nat)
  | .first arc => some <$> dataPtr target heap arc
  | .second _ => pure none

def asSecond : UnionEnum → Except Stop (Option Nat)
  | .first _ => pure none
  | .second arc => some <$> dataPtr target heap arc

def dataEq (ty : Ty) (arc other : Nat) : Except Stop Bool := do
  let one ← heap.read arc
  let two ← heap.read other
  pure (target.eq ty one.data two.data)

def eq (type : UnionType Ty S) : UnionEnum → UnionEnum → Except Stop Bool
  | .first arc, .first other => dataEq target heap type.first arc other
  | .second arc, .second other => dataEq target heap type.second arc other
  | .first _, .second _ | .second _, .first _ => pure false

end UnionEnum

/-! ## Programs -/

/-- How a program represents its `Arc`s and unions, and what it computes on
them. -/
structure Handles (Ty V S Ptr Union : Type) where
  newArc : (block base : Nat) → Except Stop Ptr
  cloneArc : Heap (Cell Ty V) S → Ty → Ptr → Except Stop (Ptr × Heap (Cell Ty V) S)
  dropArc : Heap (Cell Ty V) S → ArcType Ty S → Ptr → Except Stop (Heap (Cell Ty V) S)
  fromFirst : Ty → Ptr → Except Stop Union
  fromSecond : Ty → Ptr → Except Stop Union
  isFirst : Union → Bool
  isSecond : Union → Bool
  borrow : Heap (Cell Ty V) S → UnionType Ty S → Union → Except Stop ArcUnionBorrow
  asFirst : Heap (Cell Ty V) S → UnionType Ty S → Union → Except Stop (Option Nat)
  asSecond : Heap (Cell Ty V) S → UnionType Ty S → Union → Except Stop (Option Nat)
  ptrEq : Union → Union → Bool
  eq : Heap (Cell Ty V) S → UnionType Ty S → Union → Union → Except Stop Bool
  clone : Heap (Cell Ty V) S → UnionType Ty S → Union →
    Except Stop (Union × Heap (Cell Ty V) S)
  drop : Heap (Cell Ty V) S → UnionType Ty S → Union → Except Stop (Heap (Cell Ty V) S)

namespace Handles

variable {word : MachineWord} {Ty V S : Type} (target : Target word Ty V)

/-- Addresses and tagged words. -/
def tagged [DecidableEq Ty] : Handles Ty V S Nat Nat where
  newArc _ base := newUnchecked base
  cloneArc heap := Arc.clone heap word
  dropArc heap := Arc.drop heap word
  fromFirst := ArcUnion.fromFirst target
  fromSecond := ArcUnion.fromSecond target
  isFirst := ArcUnion.isFirst
  isSecond := ArcUnion.isSecond
  borrow := ArcUnion.borrow target
  asFirst := ArcUnion.asFirst target
  asSecond := ArcUnion.asSecond target
  ptrEq := ArcUnion.ptrEq
  eq := ArcUnion.eq target
  clone := ArcUnion.clone target
  drop := ArcUnion.drop target

/-- Names of blocks, and an enumeration with two variants. -/
def enum : Handles Ty V S Nat UnionEnum where
  newArc block _ := pure block
  cloneArc heap _ arc := (arc, ·) <$> heap.acquire word arc
  dropArc heap type arc := heap.release word arc type.strategy
  fromFirst _ arc := pure (.first arc)
  fromSecond _ arc := pure (.second arc)
  isFirst := UnionEnum.isFirst
  isSecond := UnionEnum.isSecond
  borrow heap _ := UnionEnum.borrow target heap
  asFirst heap _ := UnionEnum.asFirst target heap
  asSecond heap _ := UnionEnum.asSecond target heap
  ptrEq union other := union = other
  eq heap := UnionEnum.eq target heap
  clone heap _ union := (union, ·) <$> heap.acquire word union.block
  drop heap type union := heap.release word union.block type.strategy

end Handles

structure Var (Kind Value : Type) where
  type : Kind
  value : Value
  deriving DecidableEq, Repr

/-- The heap, and the `Arc`s and unions in the variables of a program. -/
structure Program (Ty V S Ptr Union : Type) where
  heap : Heap (Cell Ty V) S
  arcs : SlotTable (Var (ArcType Ty S) Ptr)
  unions : SlotTable (Var (UnionType Ty S) Union)

/-- What a program can do.  `base` is the address that the allocator returns. -/
inductive UnionAction (Ty V S : Type)
  | newArc (type : ArcType Ty S) (data : V) (base : Nat)
  | cloneArc (key : Nat)
  | dropArc (key : Nat)
  | fromFirst (key : Nat) (second : Ty)
  | fromSecond (key : Nat) (first : Ty)
  | isFirst (key : Nat)
  | isSecond (key : Nat)
  | borrow (key : Nat)
  | asFirst (key : Nat)
  | asSecond (key : Nat)
  | ptrEq (key other : Nat)
  | eq (key other : Nat)
  | clone (key : Nat)
  | drop (key : Nat)
  deriving DecidableEq, Repr

/-- What a program can observe of an action. -/
inductive Shown
  | done
  | flag (answer : Bool)
  | borrow (borrow : ArcUnionBorrow)
  | ptr (borrow : Option Nat)
  deriving DecidableEq, Repr

namespace Program

variable {word : MachineWord} {Ty V S Ptr Union : Type}

def empty : Program Ty V S Ptr Union :=
  ⟨[], .empty, .empty⟩

/-- One action of a program.  The compiler refuses to use what was moved, and to
compare unions of different types. -/
def step [DecidableEq Ty] [DecidableEq S] (target : Target word Ty V)
    (handles : Handles Ty V S Ptr Union) (s : Program Ty V S Ptr Union) :
    UnionAction Ty V S → Except Stop (Program Ty V S Ptr Union × Shown)
  | .newArc type data base => do
      demand (target.Vacant s.heap type.ty base) .refused
      let arc ← handles.newArc s.heap.length base
      pure ({ s with
        heap := s.heap.allocate ⟨base, type.ty, data⟩
        arcs := s.arcs.insert ⟨type, arc⟩ }, .done)
  | .cloneArc key => do
      let arc ← demandSome (s.arcs.get? key) .refused
      let (new, heap) ← handles.cloneArc s.heap arc.type.ty arc.value
      pure ({ s with heap := heap, arcs := s.arcs.insert ⟨arc.type, new⟩ }, .done)
  | .dropArc key => do
      let arc ← demandSome (s.arcs.get? key) .refused
      let heap ← handles.dropArc s.heap arc.type arc.value
      pure ({ s with heap := heap, arcs := s.arcs.erase key }, .done)
  | .fromFirst key second => do
      let arc ← demandSome (s.arcs.get? key) .refused
      let union ← handles.fromFirst arc.type.ty arc.value
      pure ({ s with
        arcs := s.arcs.erase key
        unions := s.unions.insert ⟨⟨arc.type.ty, second, arc.type.strategy⟩, union⟩ },
        .done)
  | .fromSecond key first => do
      let arc ← demandSome (s.arcs.get? key) .refused
      let union ← handles.fromSecond arc.type.ty arc.value
      pure ({ s with
        arcs := s.arcs.erase key
        unions := s.unions.insert ⟨⟨first, arc.type.ty, arc.type.strategy⟩, union⟩ },
        .done)
  | .isFirst key => do
      let union ← demandSome (s.unions.get? key) .refused
      pure (s, .flag (handles.isFirst union.value))
  | .isSecond key => do
      let union ← demandSome (s.unions.get? key) .refused
      pure (s, .flag (handles.isSecond union.value))
  | .borrow key => do
      let union ← demandSome (s.unions.get? key) .refused
      let borrow ← handles.borrow s.heap union.type union.value
      pure (s, .borrow borrow)
  | .asFirst key => do
      let union ← demandSome (s.unions.get? key) .refused
      let ptr ← handles.asFirst s.heap union.type union.value
      pure (s, .ptr ptr)
  | .asSecond key => do
      let union ← demandSome (s.unions.get? key) .refused
      let ptr ← handles.asSecond s.heap union.type union.value
      pure (s, .ptr ptr)
  | .ptrEq key other => do
      let union ← demandSome (s.unions.get? key) .refused
      let against ← demandSome (s.unions.get? other) .refused
      demand (union.type = against.type) .refused
      pure (s, .flag (handles.ptrEq union.value against.value))
  | .eq key other => do
      let union ← demandSome (s.unions.get? key) .refused
      let against ← demandSome (s.unions.get? other) .refused
      demand (union.type = against.type) .refused
      let same ← handles.eq s.heap union.type union.value against.value
      pure (s, .flag same)
  | .clone key => do
      let union ← demandSome (s.unions.get? key) .refused
      let (new, heap) ← handles.clone s.heap union.type union.value
      pure ({ s with heap := heap, unions := s.unions.insert ⟨union.type, new⟩ }, .done)
  | .drop key => do
      let union ← demandSome (s.unions.get? key) .refused
      let heap ← handles.drop s.heap union.type union.value
      pure ({ s with heap := heap, unions := s.unions.erase key }, .done)

end Program

end BackdropArc
