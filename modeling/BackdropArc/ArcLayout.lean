import BackdropArc.GuardedRuns
import BackdropArc.RecordLayout
import Mathlib.Logic.Relation

/-!
# The block behind an `Arc`

`ArcInner` and `HeaderSlice` are `repr(C)` records.  The crate computes the
layout of a block by two nested `extend` and `pad_to_align` steps, and later
frees the block under a type that pointer casts may have changed.  All of them
agree on size, alignment and the place of every part, and a size that does not
fit makes the construction panic.
-/

namespace BackdropArc

open GuardedRuns RecordLayout

variable {word : MachineWord}

/-- The sized types that occur as a header or an element. -/
inductive ElemType (word : MachineWord)
  | plain (shape : Shape word)
  | unit
  | u8
  | maybeUninit (elem : ElemType word)

namespace ElemType

/-- `MaybeUninit<T>` has the layout of `T`. -/
def shape : ElemType word → Shape word
  | .plain shape => shape
  | .unit => .unit
  | .u8 => .byte
  | .maybeUninit elem => elem.shape

/-- The values inside: none for `()`. -/
def parts : ElemType word → Parts word
  | .plain shape => [(0, shape)]
  | .unit => []
  | .u8 => [(0, .byte)]
  | .maybeUninit elem => elem.parts

end ElemType

/-- The types of the data behind an `Arc`, with the length that a fat pointer
carries. -/
inductive DataType (word : MachineWord)
  | sized (elem : ElemType word)
  | slice (elem : ElemType word) (len : Nat)
  | str (len : Nat)
  | headerSlice (header : ElemType word) (tail : DataType word)

namespace DataType

/-- `Layout::for_value`. -/
def shape : DataType word → Shape word
  | .sized elem => elem.shape
  | .slice elem len => elem.shape.array len
  | .str len => Shape.byte.array len
  | .headerSlice header tail => header.shape.record tail.shape

/-- Where the header and the elements are. -/
def parts : DataType word → Parts word
  | .sized elem => elem.parts
  | .slice elem len => (List.range len).map fun i => (elem.shape.size * i, elem.shape)
  | .str len => (List.range len).map fun i => ((Shape.byte : Shape word).size * i, .byte)
  | .headerSlice header tail =>
      header.parts ++ tail.parts.shift (header.shape.fieldOffset tail.shape)

end DataType

/-- `ArcInner<T>` for the data type `T`, where `count` is the shape of
`AtomicUsize`. -/
def arcInner (count : Shape word) (data : DataType word) : Shape word :=
  count.record data.shape

/-- The count and the parts of the data within an `ArcInner`. -/
def arcInnerParts (count : Shape word) (data : DataType word) : Parts word :=
  (0, count) :: data.parts.shift (count.fieldOffset data.shape)

/-- The pointer casts between `Arc` types. -/
inductive Cast : DataType word → DataType word → Prop
  /-- `From<Arc<HeaderSlice<(), T>>> for Arc<T>`. -/
  | eraseHeader (data : DataType word) : Cast (.headerSlice .unit data) data
  /-- `From<Arc<T>> for Arc<HeaderSlice<(), T>>`. -/
  | addHeader (data : DataType word) : Cast data (.headerSlice .unit data)
  /-- `Arc<MaybeUninit<T>>::assume_init`. -/
  | assumeInit (elem : ElemType word) :
      Cast (.sized (.maybeUninit elem)) (.sized elem)
  /-- `Arc<[MaybeUninit<T>]>::assume_init`. -/
  | assumeInitSlice (elem : ElemType word) (len : Nat) :
      Cast (.slice (.maybeUninit elem) len) (.slice elem len)
  /-- The end of `from_header_and_str`. -/
  | utf8 (header : ElemType word) (len : Nat) :
      Cast (.headerSlice header (.slice .u8 len)) (.headerSlice header (.str len))

/-- Why the construction of a block panics. -/
inductive AllocPanic
  /-- `unwrap` of a `LayoutError`. -/
  | layoutError
  /-- `debug_assert_eq!` of the layout of the value and of the block. -/
  | assertionFailed
  deriving DecidableEq, Repr

section Allocation

variable (count : Shape word) (countFits : count.size ≤ word.isizeMax)

/-- `allocate_for_layout` and `try_allocate_for_layout`: the layout that the
allocator is asked for.  `inner` is the type that the closure casts to. -/
def allocateForLayout (value : Layout word) (inner : Shape word) :
    Except AllocPanic (Layout word) := do
  let arcInnerUnit := Layout.new (count.record .unit) (by simpa using countFits)
  let (extended, _) ← demandSome (arcInnerUnit.extend value) .layoutError
  let layout := extended.padToAlign
  demand (inner.size = layout.size ∧ inner.align = layout.align) .assertionFailed
  pure layout

/-- `allocate_for_header_and_slice`.  A type that exists is not larger than
`isize::MAX`. -/
def allocateForHeaderAndSlice (header elem : ElemType word)
    (headerFits : header.shape.size ≤ word.isizeMax) (len : Nat) :
    Except AllocPanic (Layout word) := do
  let array ← demandSome (Layout.array elem.shape len) .layoutError
  let (extended, _) ← demandSome ((Layout.new header.shape headerFits).extend array)
    .layoutError
  allocateForLayout count countFits extended.padToAlign
    (arcInner count (.headerSlice header (.slice elem len)))

end Allocation

/-- The three sizes that the construction computes are admitted: that of the
array, with the header, and with the count. -/
structure SizesAdmitted (count : Shape word) (header elem : ElemType word)
    (len : Nat) : Prop where
  array : Admitted word (elem.shape.size * len) elem.shape.align
  data : Admitted word
    (header.shape.fieldOffset (elem.shape.array len) + elem.shape.size * len)
    (header.shape.align.max elem.shape.align)
  inner : Admitted word
    (count.fieldOffset (DataType.headerSlice header (.slice elem len)).shape +
      (DataType.headerSlice header (.slice elem len)).shape.size)
    (count.align.max (DataType.headerSlice header (.slice elem len)).shape.align)

section Allocation

variable (count : Shape word) (countFits : count.size ≤ word.isizeMax)
  {header elem : ElemType word} (headerFits : header.shape.size ≤ word.isizeMax)
  {len : Nat}

theorem allocateForLayout_eq {value : Layout word} {data : DataType word}
    (size : value.size = data.shape.size) (align : value.align = data.shape.align) :
    if Admitted word (count.fieldOffset data.shape + data.shape.size)
        (count.align.max data.shape.align) then
      ∃ request, allocateForLayout count countFits value (arcInner count data) =
        .ok request ∧ request.size = (arcInner count data).size ∧
          request.align = (arcInner count data).align
    else
      allocateForLayout count countFits value (arcInner count data) =
        .error .layoutError := by
  have inner : Layout.new (count.record .unit) (by simpa using countFits) =
      Layout.new count countFits := by
    congr 1
    exact count.record_of_unit
  simp only [allocateForLayout, inner]
  split
  · next admitted =>
      rw [Shape.fieldOffset, ← size, ← align] at admitted
      obtain ⟨extended, offset, extends_, total, whole, _⟩ :=
        Layout.extend_of_admitted (Layout.new count countFits) value admitted
      have same : (arcInner count data).size = extended.padToAlign.size ∧
          (arcInner count data).align = extended.padToAlign.align := by
        rw [Layout.padToAlign_size, Layout.padToAlign_align, total, whole, size, align]
        exact ⟨rfl, rfl⟩
      refine ⟨extended.padToAlign, ?_, same.1.symm, same.2.symm⟩
      rw [extends_]
      exact bind_eq_ok.mpr ⟨_, rfl, bind_eq_ok.mpr ⟨(), demand_eq_ok.mpr same, rfl⟩⟩
  · next refused =>
      rw [Shape.fieldOffset, ← size, ← align] at refused
      rw [Layout.extend_of_refused refused]
      rfl

theorem allocateForHeaderAndSlice_data
    (array : Admitted word (elem.shape.size * len) elem.shape.align)
    (data : Admitted word
      (header.shape.fieldOffset (elem.shape.array len) + elem.shape.size * len)
      (header.shape.align.max elem.shape.align)) :
    ∃ value : Layout word,
      value.size = (DataType.headerSlice header (.slice elem len)).shape.size ∧
        value.align = (DataType.headerSlice header (.slice elem len)).shape.align ∧
          allocateForHeaderAndSlice count countFits header elem headerFits len =
            allocateForLayout count countFits value
              (arcInner count (.headerSlice header (.slice elem len))) := by
  obtain ⟨extended, offset, extends_, total, whole, _⟩ :=
    Layout.extend_of_admitted (Layout.new header.shape headerFits)
      ⟨elem.shape.size * len, elem.shape.align, array⟩ data
  refine ⟨extended.padToAlign, ?_, whole, ?_⟩
  · rw [Layout.padToAlign_size, total, whole]
    rfl
  · simp only [allocateForHeaderAndSlice, Layout.array_of_admitted array, demandSome,
      bind, Except.bind, extends_]

/-- The construction asks for exactly the block of the type it builds. -/
theorem allocateForHeaderAndSlice_of_admitted
    (admitted : SizesAdmitted count header elem len) :
    ∃ request,
      allocateForHeaderAndSlice count countFits header elem headerFits len =
        .ok request ∧
      request.size = (arcInner count (.headerSlice header (.slice elem len))).size ∧
      request.align = (arcInner count (.headerSlice header (.slice elem len))).align := by
  obtain ⟨value, size, align, run⟩ := allocateForHeaderAndSlice_data count countFits
    headerFits admitted.array admitted.data
  have last := allocateForLayout_eq count countFits size align
  rw [if_pos admitted.inner] at last
  rw [run]
  exact last

theorem allocateForHeaderAndSlice_of_refused
    (refused : ¬ SizesAdmitted count header elem len) :
    allocateForHeaderAndSlice count countFits header elem headerFits len =
      .error .layoutError := by
  by_cases array : Admitted word (elem.shape.size * len) elem.shape.align
  · by_cases data : Admitted word
        (header.shape.fieldOffset (elem.shape.array len) + elem.shape.size * len)
        (header.shape.align.max elem.shape.align)
    · obtain ⟨value, size, align, run⟩ := allocateForHeaderAndSlice_data count countFits
        headerFits array data
      have last := allocateForLayout_eq count countFits size align
      rw [if_neg fun inner => refused ⟨array, data, inner⟩] at last
      rw [run]
      exact last
    · have refuses : (Layout.new header.shape headerFits).extend
          ⟨elem.shape.size * len, elem.shape.align, array⟩ = none :=
        Layout.extend_of_refused data
      simp only [allocateForHeaderAndSlice, Layout.array_of_admitted array, demandSome,
        bind, Except.bind, refuses]
  · simp only [allocateForHeaderAndSlice, Layout.array_of_refused array, demandSome,
      bind, Except.bind]

end Allocation

/-! ## The parts of a block -/

theorem ElemType.placed (elem : ElemType word) : Placed elem.shape elem.parts := by
  induction elem with
  | plain shape => exact .single shape
  | unit => exact .nil _
  | u8 => exact .single _
  | maybeUninit elem ih => exact ih

/-- The parts of the data lie where their type says, for every data type. -/
theorem DataType.placed (data : DataType word) : Placed data.shape data.parts := by
  induction data with
  | sized elem => exact elem.placed
  | slice elem len => exact .array elem.shape len
  | str len => exact .array .byte len
  | headerSlice header tail ih => exact header.placed.append ih

theorem arcInner_placed (count : Shape word) (data : DataType word) :
    Placed (arcInner count data) (arcInnerParts count data) :=
  (Placed.single count).append data.placed

theorem Cast.same {data after : DataType word} (cast : Cast data after) :
    after.shape = data.shape ∧ after.parts = data.parts := by
  cases cast with
  | eraseHeader | addHeader =>
      simp [DataType.shape, DataType.parts, ElemType.shape, ElemType.parts]
  | assumeInit elem => exact ⟨rfl, rfl⟩
  | assumeInitSlice elem len => exact ⟨rfl, rfl⟩
  | utf8 header len => exact ⟨rfl, rfl⟩

theorem same_of_casts {data after : DataType word}
    (casts : Relation.ReflTransGen Cast data after) :
    after.shape = data.shape ∧ after.parts = data.parts := by
  induction casts with
  | refl => exact ⟨rfl, rfl⟩
  | tail _ cast ih =>
      obtain ⟨shape, parts⟩ := cast.same
      exact ⟨shape.trans ih.1, parts.trans ih.2⟩

/-- The sizes are admitted exactly if the whole block is not larger than
`isize::MAX`. -/
theorem sizesAdmitted_iff {count : Shape word} {header elem : ElemType word} {len : Nat} :
    SizesAdmitted count header elem len ↔
      (arcInner count (.headerSlice header (.slice elem len))).size ≤ word.isizeMax := by
  have whole : Admitted word
        (count.fieldOffset (DataType.headerSlice header (.slice elem len)).shape +
          (DataType.headerSlice header (.slice elem len)).shape.size)
        (count.align.max (DataType.headerSlice header (.slice elem len)).shape.align) ↔
      (arcInner count (.headerSlice header (.slice elem len))).size ≤ word.isizeMax :=
    admitted_iff_roundUp
  constructor
  · exact fun admitted => whole.mp admitted.inner
  · intro small
    have inner := whole.mpr small
    have dataSize := header.shape.fieldOffset_add_le (elem.shape.array len)
    have dataAlign := Alignment.le_max_right count.align
      (header.shape.align.max elem.shape.align)
    have elemAlign := Alignment.le_max_right header.shape.align elem.shape.align
    have bound := inner
    simp only [Admitted, DataType.shape, Shape.record_align, Shape.array] at bound dataSize
    refine ⟨?_, ?_, inner⟩
    · unfold Admitted
      omega
    · unfold Admitted
      simp only [Shape.array]
      omega

/-- The layout of a block agrees with its use and with its deallocation.  The
construction panics exactly where a size is not admitted, and otherwise asks
for the size and alignment of `ArcInner<HeaderSlice<H, [T]>>`; in this block the
count, the header and the elements are aligned, in bounds and disjoint; and
after any chain of pointer casts all parts are where they were, and the layout
with which the block is freed is the one that was asked for. -/
theorem allocation_layout (count : Shape word) (countFits : count.size ≤ word.isizeMax)
    (header elem : ElemType word) (headerFits : header.shape.size ≤ word.isizeMax)
    (len : Nat) :
    (¬ SizesAdmitted count header elem len →
      allocateForHeaderAndSlice count countFits header elem headerFits len =
        .error .layoutError) ∧
    (SizesAdmitted count header elem len →
      ∃ request,
        allocateForHeaderAndSlice count countFits header elem headerFits len =
          .ok request ∧
        ∀ data, Relation.ReflTransGen Cast (.headerSlice header (.slice elem len)) data →
          (arcInner count data).size = request.size ∧
            (arcInner count data).align = request.align) ∧
    Placed (arcInner count (.headerSlice header (.slice elem len)))
      (arcInnerParts count (.headerSlice header (.slice elem len))) ∧
    ∀ data, Relation.ReflTransGen Cast (.headerSlice header (.slice elem len)) data →
      arcInnerParts count data =
        arcInnerParts count (.headerSlice header (.slice elem len)) := by
  refine ⟨allocateForHeaderAndSlice_of_refused count countFits headerFits, ?_,
    arcInner_placed count _, ?_⟩
  · intro admitted
    obtain ⟨request, asked, size, align⟩ :=
      allocateForHeaderAndSlice_of_admitted count countFits headerFits admitted
    refine ⟨request, asked, fun data casts => ?_⟩
    unfold arcInner at size align ⊢
    rw [(same_of_casts casts).1, size, align]
    exact ⟨rfl, rfl⟩
  · intro data casts
    obtain ⟨shape, parts⟩ := same_of_casts casts
    unfold arcInnerParts
    rw [shape, parts]

/-- `AtomicUsize` on a 64-bit machine. -/
def wideCount : Shape .wide :=
  ⟨8, ⟨3, by decide⟩, by decide⟩

/-- A block of three over-aligned elements, freed without its empty header. -/
theorem allocation_layout_witness :
    ∃ request : Layout .wide,
      allocateForHeaderAndSlice wideCount (by decide) .unit
          (.plain ⟨32, ⟨5, by decide⟩, by decide⟩) (by decide) 3 = .ok request ∧
        (arcInner wideCount
          (.slice (.plain ⟨32, ⟨5, by decide⟩, by decide⟩) 3)).size = request.size :=
  have admitted : SizesAdmitted wideCount .unit
      (.plain ⟨32, ⟨5, by decide⟩, by decide⟩) 3 :=
    ⟨by decide, by decide, by decide⟩
  have layout := (allocation_layout wideCount (by decide) .unit
    (.plain ⟨32, ⟨5, by decide⟩, by decide⟩) (by decide) 3).2.1 admitted
  layout.elim fun request both =>
    ⟨request, both.1, (both.2 _ (.single (.eraseHeader _))).1⟩

end BackdropArc
