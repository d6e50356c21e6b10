import BackdropArc.UnionOperations

/-!
# The forms of a pointer

An `Arc` holds the address of its block; `into_raw`, `OffsetArc`, `ArcBorrow`
and the pointers of `arc-swap` hold the address of the data.  On the way out
the compiler projects the field, on the way back `offset_of!` measures the
field on a local variable and the result is subtracted.  The two agree on every
live block, and for slices under whatever type the block was allocated.
-/

namespace BackdropArc

open GuardedRuns RecordLayout

variable {word : MachineWord} {Ty V S : Type}

/-! ## The code -/

/-- An object of this shape may lie at the address. -/
def Lies (shape : Shape word) (base : Nat) : Prop :=
  0 < base ∧ shape.align.value ∣ base ∧ base + shape.size < word.modulus

instance (shape : Shape word) (base : Nat) : Decidable (Lies shape base) :=
  inferInstanceAs (Decidable (_ ∧ _ ∧ _))

/-- `addr_of!((*base_ptr).data)` for a `base_ptr` to an `ArcInner`. -/
def addrOfData (count data : Shape word) (basePtr : Nat) : Nat :=
  word.wrappingAdd basePtr (count.fieldOffset data)

/-- `offset_of!(ArcInner<T>, data)`, whose local variable `uninit` lies at the
given address. -/
def offsetOf (count data : Shape word) (uninit : Nat) : Nat :=
  word.wrappingSub (addrOfData count data uninit) uninit

section Code

variable (target : Target word Ty V) (heap : Heap (Cell Ty V) S) (uninit : Nat)

namespace Arc

def intoRaw (ty : Ty) (this : Nat) : Nat :=
  asPtr target ty this

/-- `Arc::from_raw`, in a frame that has the local variable of `offset_of!` at
`uninit`. -/
def fromRawAt (ty : Ty) (ptr : Nat) : Except Stop Nat :=
  newUnchecked (word.wrappingSub ptr
    (offsetOf target.count (DataType.sized (target.elem ty)).shape uninit))

def intoRawOffset (ty : Ty) (a : Nat) : Except Stop Nat :=
  newUnchecked (intoRaw target ty a)

def fromRawOffset (ty : Ty) (a : Nat) : Except Stop Nat :=
  fromRawAt target uninit ty a

/-- `Arc::with_raw_offset_arc`; the transient handle is never dropped. -/
def withRawOffsetArc {Result : Type} (ty : Ty) (this : Nat)
    (f : Nat → Except Stop Result) : Except Stop Result := do
  let transient ← intoRawOffset target ty this
  f transient

variable [DecidableEq Ty]

/-- `Arc::borrow_arc`, a reference to the data. -/
def borrowArc (ty : Ty) (this : Nat) : Except Stop Nat := do
  let _ ← Target.arcInnerAt heap ty this
  pure (asPtr target ty this)

end Arc

/-! `RefCnt` of `arc-swap`. -/

namespace RefCnt

def intoPtr (ty : Ty) (me : Nat) : Nat :=
  Arc.intoRaw target ty me

def asPtr (ty : Ty) (me : Nat) : Nat :=
  Arc.asPtr target ty me

def fromPtr (ty : Ty) (ptr : Nat) : Except Stop Nat :=
  Arc.fromRawAt target uninit ty ptr

end RefCnt

variable [DecidableEq Ty]

/-- `ArcBorrow::clone_arc`, with the local variable of `offset_of!`. -/
def ArcBorrow.cloneArcAt (ty : Ty) (ptr : Nat) :
    Except Stop (Nat × Heap (Cell Ty V) S) := do
  let arc ← Arc.fromRawAt target uninit ty ptr
  -- the clone is forgotten, so that `arc` has the reference it counted
  let (_, heap) ← Arc.clone heap word ty arc
  pure (arc, heap)

namespace OffsetArc

/-- `OffsetArc::with_arc`; the transient handle is never dropped. -/
def withArc {Result : Type} (ty : Ty) (ptr : Nat) (f : Nat → Except Stop Result) :
    Except Stop Result := do
  let transient ← Arc.fromRawAt target uninit ty ptr
  f transient

def cloneArc (ty : Ty) (ptr : Nat) : Except Stop (Nat × Heap (Cell Ty V) S) :=
  withArc target uninit ty ptr fun a => Arc.clone heap word ty a

/-- `OffsetArc::borrow_arc`, a reference to the data. -/
def borrowArc (ty : Ty) (ptr : Nat) : Except Stop Nat := do
  let _ ← target.dataAt heap ty ptr
  pure ptr

def clone (ty : Ty) (ptr : Nat) : Except Stop (Nat × Heap (Cell Ty V) S) := do
  let (arc, heap) ← cloneArc target heap uninit ty ptr
  pure (← Arc.intoRawOffset target ty arc, heap)

def drop (type : ArcType Ty S) (ptr : Nat) : Except Stop (Heap (Cell Ty V) S) := do
  let arc ← Arc.fromRawOffset target uninit type.ty ptr
  Arc.drop heap word type arc

end OffsetArc

end Code

/-! `Arc<[T]>` is a fat pointer. -/

/-- An address with the length of the slice behind it. -/
structure SlicePtr where
  address : Nat
  len : Nat
  deriving DecidableEq, Repr

namespace Arc

variable (count : Shape word) (elem : ElemType word)

/-- `Arc::as_ptr` and `Arc::into_raw` of an `Arc<[T]>`, which project the field
of `ArcInner<[T]>`. -/
def sliceIntoRaw (this : SlicePtr) : SlicePtr :=
  ⟨addrOfData count (DataType.slice elem this.len).shape this.address, this.len⟩

/-- `Arc::from_raw_slice`, which measures the field of `ArcInner<T>`. -/
def fromRawSlice (uninit : Nat) (ptr : SlicePtr) : Except Stop SlicePtr := do
  let len := ptr.len
  let arcInnerPtr := word.wrappingSub ptr.address
    (offsetOf count (DataType.sized elem).shape uninit)
  let address ← newUnchecked arcInnerPtr
  pure ⟨address, len⟩

end Arc

/-! ## Each conversion on a live block -/

/-- The macro measures the offset that the compiler uses. -/
theorem offsetOf_eq {count data : Shape word} {uninit : Nat}
    (lies : Lies (count.record data) uninit) :
    offsetOf count data uninit = count.fieldOffset data := by
  have inside := count.fieldOffset_add_le data
  have below := lies.2.2
  have field : addrOfData count data uninit = uninit + count.fieldOffset data :=
    word.wrappingAdd_eq (by omega)
  unfold offsetOf
  rw [field, word.wrappingSub_eq (by omega) (Nat.le_add_right _ _), Nat.add_sub_cancel_left]

/-- The element and the slice are at the same distance from the count word, so
a slice comes back to its block under whatever type it was allocated. -/
theorem Arc.fromRawSlice_eq {count : Shape word} {elem : ElemType word}
    {len base uninit : Nat} {data : DataType word}
    (casts : Relation.ReflTransGen Cast data (.slice elem len))
    (suits : Lies (arcInner count data) base)
    (lies : Lies (arcInner count (.sized elem)) uninit) :
    Arc.fromRawSlice count elem uninit (Arc.sliceIntoRaw count elem ⟨base, len⟩) =
      .ok ⟨base, len⟩ := by
  unfold arcInner at suits
  rw [← (same_of_casts casts).1] at suits
  have inside := count.fieldOffset_add_le (DataType.slice elem len).shape
  have below := suits.2.2
  have sameOffset : count.fieldOffset (DataType.sized elem).shape =
      count.fieldOffset (DataType.slice elem len).shape := rfl
  have field : addrOfData count (DataType.slice elem len).shape base =
      base + count.fieldOffset (DataType.slice elem len).shape :=
    word.wrappingAdd_eq (by omega)
  simp only [fromRawSlice, sliceIntoRaw, offsetOf_eq lies, field, sameOffset]
  rw [word.wrappingSub_eq (by omega) (Nat.le_add_left _ _), Nat.add_sub_cancel,
    newUnchecked_eq suits.1]
  rfl

section Conversions

variable {target : Target word Ty V} {heap : Heap (Cell Ty V) S} {p uninit : Nat}
  {cell : Cell Ty V}

theorem Arc.fromRawAt_eq {ty : Ty} (lies : Lies (target.inner ty) uninit) (ptr : Nat) :
    Arc.fromRawAt target uninit ty ptr = Arc.fromRaw target ty ptr := by
  unfold fromRawAt fromRaw
  rw [offsetOf_eq lies]
  rfl

variable (arranged : target.Arranged heap) (here : heap.read p = .ok cell)

include arranged here

theorem Arc.intoRawOffset_eq :
    Arc.intoRawOffset target cell.ty cell.base =
      .ok (cell.base + target.dataOffset cell.ty) := by
  unfold intoRawOffset intoRaw
  rw [Arc.asPtr_eq arranged here]
  exact newUnchecked_eq (Nat.add_pos_left (arranged.suits p cell here).1 _)

theorem Arc.fromRawAt_data (lies : Lies (target.inner cell.ty) uninit) :
    Arc.fromRawAt target uninit cell.ty (cell.base + target.dataOffset cell.ty) =
      .ok cell.base := by
  rw [Arc.fromRawAt_eq lies, Arc.fromRaw_eq arranged here]

variable [DecidableEq Ty]

theorem Arc.borrowArc_eq :
    Arc.borrowArc target heap cell.ty cell.base =
      .ok (cell.base + target.dataOffset cell.ty) := by
  unfold borrowArc
  rw [arranged.arcInnerAt_eq here, Arc.asPtr_eq arranged here]
  rfl

theorem ArcBorrow.cloneArcAt_eq (lies : Lies (target.inner cell.ty) uninit) :
    ArcBorrow.cloneArcAt target heap uninit cell.ty
        (cell.base + target.dataOffset cell.ty) =
      (cell.base, ·) <$> heap.acquire word p := by
  unfold cloneArcAt
  rw [Arc.fromRawAt_eq lies]
  exact ArcBorrow.cloneArc_eq arranged here

namespace OffsetArc

theorem borrowArc_eq :
    borrowArc target heap cell.ty (cell.base + target.dataOffset cell.ty) =
      .ok (cell.base + target.dataOffset cell.ty) := by
  unfold borrowArc
  rw [arranged.dataAt_eq here]
  rfl

theorem cloneArc_eq (lies : Lies (target.inner cell.ty) uninit) :
    cloneArc target heap uninit cell.ty (cell.base + target.dataOffset cell.ty) =
      (cell.base, ·) <$> heap.acquire word p := by
  unfold cloneArc withArc
  rw [Arc.fromRawAt_data arranged here lies]
  exact Arc.clone_eq arranged here

theorem clone_eq (lies : Lies (target.inner cell.ty) uninit) :
    clone target heap uninit cell.ty (cell.base + target.dataOffset cell.ty) =
      (cell.base + target.dataOffset cell.ty, ·) <$> heap.acquire word p := by
  unfold clone
  rw [cloneArc_eq arranged here lies]
  cases heap.acquire word p with
  | error stop => rfl
  | ok next =>
      simp only [Functor.map, Except.map, bind, Except.bind,
        Arc.intoRawOffset_eq arranged here]
      rfl

theorem drop_eq (lies : Lies (target.inner cell.ty) uninit) (strategy : S) :
    drop target heap uninit ⟨cell.ty, strategy⟩
        (cell.base + target.dataOffset cell.ty) =
      heap.release word p strategy := by
  unfold drop Arc.fromRawOffset
  rw [Arc.fromRawAt_data arranged here lies]
  exact Arc.drop_eq arranged here strategy

end OffsetArc

end Conversions

end BackdropArc
