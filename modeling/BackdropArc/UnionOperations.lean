import BackdropArc.ArcUnion

/-!
# The tagged word computes what the enumeration does

Each operation on the word of a union gives the result of the same operation on
the variant, as long as its block is live and has the type of the variant.
-/

namespace BackdropArc

open GuardedRuns

variable {word : MachineWord} {Ty V S : Type} {target : Target word Ty V}

/-! ## The operations on one union -/

section Operations

variable {heap : Heap (Cell Ty V) S} {p : Nat} {cell : Cell Ty V}

/-- The address of a block. -/
def Heap.address (heap : Heap (Cell Ty V) S) (p : Nat) : Nat :=
  (heap.dataAt p).elim 0 (·.base)

/-- The word that stands for a union. -/
def UnionEnum.encode (target : Target word Ty V) (heap : Heap (Cell Ty V) S)
    (type : UnionType Ty S) : UnionEnum → Nat
  | .first arc => heap.address arc + target.dataOffset type.first
  | .second arc => heap.address arc + target.dataOffset type.second + 1

/-- The borrow that finds the data at an address. -/
def UnionEnum.borrowing (ptr : Nat) : UnionEnum → ArcUnionBorrow
  | .first _ => .first ptr
  | .second _ => .second ptr

theorem Heap.address_of_read (here : heap.read p = .ok cell) :
    heap.address p = cell.base := by
  simp [address, (read_eq_ok.mp here).2]

theorem newUnchecked_eq {ptr : Nat} (positive : 0 < ptr) :
    newUnchecked ptr = .ok ptr := by
  simp [newUnchecked, demand, Nat.ne_of_gt positive, bind, Except.bind, pure, Except.pure]

variable (arranged : target.Arranged heap) (here : heap.read p = .ok cell)

include arranged here

theorem Arc.asPtr_eq :
    Arc.asPtr target cell.ty cell.base = cell.base + target.dataOffset cell.ty :=
  word.wrappingAdd_eq (arranged.suits p cell here).data_lt

theorem Arc.fromRaw_eq :
    Arc.fromRaw target cell.ty (cell.base + target.dataOffset cell.ty) =
      .ok cell.base := by
  have suits := arranged.suits p cell here
  unfold fromRaw
  rw [word.wrappingSub_eq suits.data_lt (Nat.le_add_left _ _), Nat.add_sub_cancel]
  exact newUnchecked_eq suits.1

theorem ArcUnion.fromFirst_eq :
    ArcUnion.fromFirst target cell.ty cell.base =
      .ok (cell.base + target.dataOffset cell.ty) := by
  have suits := arranged.suits p cell here
  unfold fromFirst
  rw [Arc.asPtr_eq arranged here]
  exact newUnchecked_eq (Nat.add_pos_left suits.1 _)

theorem ArcUnion.fromSecond_eq :
    ArcUnion.fromSecond target cell.ty cell.base =
      .ok (cell.base + target.dataOffset cell.ty + 1) := by
  have suits := arranged.suits p cell here
  unfold fromSecond
  rw [Arc.asPtr_eq arranged here, MachineWord.or_one_of_even suits.two_dvd_data]
  exact newUnchecked_eq (Nat.succ_pos _)

variable [DecidableEq Ty]

theorem Arc.clone_eq :
    Arc.clone heap word cell.ty cell.base =
      (cell.base, ·) <$> heap.acquire word p := by
  unfold clone
  rw [arranged.arcInnerAt_eq here, newUnchecked_eq (arranged.suits p cell here).1]
  simp only [bind, Except.bind]
  cases heap.acquire word p with
  | error stop => rfl
  | ok next => rfl

theorem Arc.drop_eq (strategy : S) :
    Arc.drop heap word ⟨cell.ty, strategy⟩ cell.base =
      heap.release word p strategy := by
  unfold drop
  rw [arranged.arcInnerAt_eq here]
  rfl

theorem ArcBorrow.fromRef_eq :
    ArcBorrow.fromRef target heap cell.ty (cell.base + target.dataOffset cell.ty) =
      .ok (cell.base + target.dataOffset cell.ty) := by
  unfold fromRef
  rw [arranged.dataAt_eq here]
  rfl

theorem ArcBorrow.cloneArc_eq :
    ArcBorrow.cloneArc target heap cell.ty (cell.base + target.dataOffset cell.ty) =
      (cell.base, ·) <$> heap.acquire word p := by
  unfold cloneArc
  rw [Arc.fromRaw_eq arranged here]
  simp only [bind, Except.bind, Arc.clone_eq arranged here]
  cases heap.acquire word p with
  | error stop => rfl
  | ok next => rfl

end Operations

section UnionOperations

variable {heap : Heap (Cell Ty V) S} {union other : UnionEnum}
  {cell otherCell : Cell Ty V} {type : UnionType Ty S}

theorem UnionEnum.encode_first {arc : Nat} (here : heap.read arc = .ok cell)
    (typed : cell.ty = type.first) :
    encode target heap type (.first arc) = cell.base + target.dataOffset cell.ty := by
  rw [encode, Heap.address_of_read here, typed]

theorem UnionEnum.encode_second {arc : Nat} (here : heap.read arc = .ok cell)
    (typed : cell.ty = type.second) :
    encode target heap type (.second arc) =
      cell.base + target.dataOffset cell.ty + 1 := by
  rw [encode, Heap.address_of_read here, typed]

theorem UnionEnum.dataPtr_eq {arc : Nat} (here : heap.read arc = .ok cell) :
    dataPtr target heap arc = .ok (cell.base + target.dataOffset cell.ty) := by
  unfold dataPtr
  rw [here]
  rfl

/-- The tag tells the variant. -/
theorem ArcUnion.isFirst_eq (arranged : target.Arranged heap)
    (here : heap.read union.block = .ok cell) (typed : cell.ty = union.ty type) :
    ArcUnion.isFirst (union.encode target heap type) = union.isFirst := by
  have even := (arranged.suits union.block cell here).two_dvd_data
  cases union with
  | first arc =>
      have encoded : (UnionEnum.first arc).encode target heap type = _ :=
        UnionEnum.encode_first here typed
      rw [encoded]
      simp [isFirst, UnionEnum.isFirst, MachineWord.and_one_of_even even]
  | second arc =>
      have encoded : (UnionEnum.second arc).encode target heap type = _ :=
        UnionEnum.encode_second here typed
      have odd : (cell.base + target.dataOffset cell.ty + 1) % 2 = 1 := by omega
      rw [encoded]
      simp [isFirst, UnionEnum.isFirst, Nat.and_one_is_mod, odd]

theorem ArcUnion.untag_second (arranged : target.Arranged heap) {arc : Nat}
    (here : heap.read arc = .ok cell) (typed : cell.ty = type.second) :
    (UnionEnum.second arc).encode target heap type &&& word.complement 0x1 =
      cell.base + target.dataOffset cell.ty := by
  have suits := arranged.suits arc cell here
  have even := suits.two_dvd_data
  have fits : cell.base + target.dataOffset cell.ty + 1 < word.modulus := by
    have below := suits.data_lt
    have evenModulus := word.modulus_eq
    omega
  have untagged := word.untag_of_even even fits
  rwa [MachineWord.or_one_of_even even, ← UnionEnum.encode_second here typed]
    at untagged

theorem UnionEnum.borrow_eq (here : heap.read union.block = .ok cell) :
    union.borrow target heap =
      .ok (union.borrowing (cell.base + target.dataOffset cell.ty)) := by
  cases union with
  | first arc | second arc =>
      have stored : heap.read arc = .ok cell := here
      simp only [borrow, dataPtr_eq stored]
      rfl

/-- Two unions of one type have the same word only if they have the same
variant and share a block. -/
theorem ArcUnion.ptrEq_eq (arranged : target.Arranged heap)
    (here : heap.read union.block = .ok cell) (typed : cell.ty = union.ty type)
    (there : heap.read other.block = .ok otherCell)
    (otherTyped : otherCell.ty = other.ty type) :
    ArcUnion.ptrEq (union.encode target heap type) (other.encode target heap type) =
      decide (union = other) := by
  unfold ptrEq
  refine decide_eq_decide.mpr ⟨fun sameWord => ?_, congrArg _⟩
  have sameVariant : union.isFirst = other.isFirst := by
    rw [← ArcUnion.isFirst_eq arranged here typed, sameWord,
      ArcUnion.isFirst_eq arranged there otherTyped]
  have sameBase : cell.base = otherCell.base → union.block = other.block :=
    arranged.apart _ _ cell otherCell here there
  rw [← Heap.address_of_read here, ← Heap.address_of_read there] at sameBase
  cases union with
  | first arc =>
      cases other with
      | first arc' =>
          rw [show arc = arc' from sameBase (Nat.add_right_cancel sameWord)]
      | second arc' => cases sameVariant
  | second arc =>
      cases other with
      | first arc' => cases sameVariant
      | second arc' =>
          rw [show arc = arc' from
            sameBase (Nat.add_right_cancel (Nat.add_right_cancel sameWord))]

variable [DecidableEq Ty]

theorem ArcUnion.borrow_eq (arranged : target.Arranged heap)
    (here : heap.read union.block = .ok cell) (typed : cell.ty = union.ty type) :
    ArcUnion.borrow target heap type (union.encode target heap type) =
      .ok (union.borrowing (cell.base + target.dataOffset cell.ty)) := by
  have found := ArcBorrow.fromRef_eq arranged here
  unfold borrow
  rw [ArcUnion.isFirst_eq arranged here typed]
  cases union with
  | first arc =>
      have encoded : (UnionEnum.first arc).encode target heap type = _ :=
        UnionEnum.encode_first here typed
      have sameType : type.first = cell.ty := typed.symm
      rw [encoded, sameType, found]
      rfl
  | second arc =>
      have stored : heap.read arc = .ok cell := here
      have untagged := ArcUnion.untag_second arranged stored typed
      have sameType : type.second = cell.ty := typed.symm
      simp only [UnionEnum.isFirst, untagged, sameType, found]
      rfl

theorem ArcUnion.asFirst_eq (arranged : target.Arranged heap)
    (here : heap.read union.block = .ok cell) (typed : cell.ty = union.ty type) :
    ArcUnion.asFirst target heap type (union.encode target heap type) =
      union.asFirst target heap := by
  unfold asFirst
  rw [ArcUnion.borrow_eq arranged here typed]
  cases union with
  | first arc =>
      have stored : heap.read arc = .ok cell := here
      simp only [UnionEnum.asFirst, UnionEnum.dataPtr_eq stored]
      rfl
  | second arc => rfl

theorem ArcUnion.asSecond_eq (arranged : target.Arranged heap)
    (here : heap.read union.block = .ok cell) (typed : cell.ty = union.ty type) :
    ArcUnion.asSecond target heap type (union.encode target heap type) =
      union.asSecond target heap := by
  unfold asSecond
  rw [ArcUnion.borrow_eq arranged here typed]
  cases union with
  | first arc => rfl
  | second arc =>
      have stored : heap.read arc = .ok cell := here
      simp only [UnionEnum.asSecond, UnionEnum.dataPtr_eq stored]
      rfl

theorem ArcBorrow.eq_eq (arranged : target.Arranged heap) {p q : Nat} {ty : Ty}
    (here : heap.read p = .ok cell) (typed : cell.ty = ty)
    (there : heap.read q = .ok otherCell) (otherTyped : otherCell.ty = ty) :
    ArcBorrow.eq target heap ty (cell.base + target.dataOffset cell.ty)
        (otherCell.base + target.dataOffset otherCell.ty) =
      UnionEnum.dataEq target heap ty p q := by
  have found := arranged.dataAt_eq here
  have otherFound := arranged.dataAt_eq there
  rw [typed] at found
  rw [otherTyped] at otherFound
  unfold eq UnionEnum.dataEq
  rw [typed, otherTyped, found, otherFound]
  rfl

theorem ArcUnion.eq_eq (arranged : target.Arranged heap)
    (here : heap.read union.block = .ok cell) (typed : cell.ty = union.ty type)
    (there : heap.read other.block = .ok otherCell)
    (otherTyped : otherCell.ty = other.ty type) :
    ArcUnion.eq target heap type (union.encode target heap type)
        (other.encode target heap type) =
      UnionEnum.eq target heap type union other := by
  unfold eq
  rw [ArcUnion.borrow_eq arranged here typed,
    ArcUnion.borrow_eq arranged there otherTyped]
  cases union with
  | first arc =>
      cases other with
      | first arc' => exact ArcBorrow.eq_eq arranged here typed there otherTyped
      | second arc' => rfl
  | second arc =>
      cases other with
      | first arc' => rfl
      | second arc' => exact ArcBorrow.eq_eq arranged here typed there otherTyped

theorem ArcUnion.clone_eq (arranged : target.Arranged heap)
    (here : heap.read union.block = .ok cell) (typed : cell.ty = union.ty type) :
    ArcUnion.clone target heap type (union.encode target heap type) =
      (union.encode target heap type, ·) <$> heap.acquire word union.block := by
  have cloned := ArcBorrow.cloneArc_eq arranged here
  unfold clone
  rw [ArcUnion.borrow_eq arranged here typed]
  cases union with
  | first arc =>
      have sameType : type.first = cell.ty := typed.symm
      have encoded : (UnionEnum.first arc).encode target heap type = _ :=
        UnionEnum.encode_first here typed
      rw [encoded]
      simp only [UnionEnum.borrowing, bind, Except.bind, sameType, cloned]
      cases heap.acquire word (UnionEnum.first arc).block with
      | error stop => rfl
      | ok next =>
          simp only [Functor.map, Except.map, ArcUnion.fromFirst_eq arranged here]
          rfl
  | second arc =>
      have sameType : type.second = cell.ty := typed.symm
      have encoded : (UnionEnum.second arc).encode target heap type = _ :=
        UnionEnum.encode_second here typed
      rw [encoded]
      simp only [UnionEnum.borrowing, bind, Except.bind, sameType, cloned]
      cases heap.acquire word (UnionEnum.second arc).block with
      | error stop => rfl
      | ok next =>
          simp only [Functor.map, Except.map, ArcUnion.fromSecond_eq arranged here]
          rfl

theorem ArcUnion.drop_eq (arranged : target.Arranged heap)
    (here : heap.read union.block = .ok cell) (typed : cell.ty = union.ty type) :
    ArcUnion.drop target heap type (union.encode target heap type) =
      heap.release word union.block type.strategy := by
  have dropped := Arc.drop_eq arranged here type.strategy
  unfold drop
  rw [ArcUnion.borrow_eq arranged here typed]
  cases union with
  | first arc =>
      have sameType : type.first = cell.ty := typed.symm
      simp only [UnionEnum.borrowing, bind, Except.bind, sameType,
        Arc.fromRaw_eq arranged here, dropped]
  | second arc =>
      have sameType : type.second = cell.ty := typed.symm
      simp only [UnionEnum.borrowing, bind, Except.bind, sameType,
        Arc.fromRaw_eq arranged here, dropped]

end UnionOperations

end BackdropArc
