import BackdropArc.ArcLayout
import BackdropArc.SharedHeap

/-!
# Blocks at addresses

The allocator places every block at an address of its choice, where it overlaps
no live block.  Pointers are numbers: an access through a pointer finds the live
block of the pointer's type at that address, and is an error where there is
none.
-/

namespace BackdropArc

open GuardedRuns RecordLayout

variable {word : MachineWord} {Ty V S : Type}

/-- What the compiler fixes for the payload types of a program: the shape of the
count word and of each type, and the `PartialEq` of each type.  The lowest bit
in the address of a count word is free. -/
structure Target (word : MachineWord) (Ty V : Type) where
  count : Shape word
  size_pos : 0 < count.size
  two_le_align : 2 ≤ count.align.value
  elem : Ty → ElemType word
  eq : Ty → V → V → Bool

/-- The contents of a block, with the address and the type it was allocated
for. -/
structure Cell (Ty V : Type) where
  base : Nat
  ty : Ty
  data : V
  deriving DecidableEq, Repr

/-- A 64-bit machine with one payload type. -/
def Target.wide (shape : Shape .wide) (eq : V → V → Bool) : Target .wide Unit V where
  count := wideCount
  size_pos := by decide
  two_le_align := by decide
  elem _ := .plain shape
  eq _ := eq

/-! ## Heap operations of a single thread -/

namespace Heap

/-- The effect of `Arc::clone` on the heap. -/
def acquire (word : MachineWord) (heap : Heap V S) (p : Nat) : Except Stop (Heap V S) := do
  let (old, heap) ← heap.fetchAdd word p
  demand (old ≤ maxRefcount word) .aborted
  pure heap

/-- The effect of `Drop for Arc` on the heap. -/
def release (word : MachineWord) (heap : Heap V S) (p : Nat) (strategy : S) :
    Except Stop (Heap V S) := do
  let (old, heap) ← heap.fetchSub word p
  if old ≠ 1 then pure heap
  else
    let _ ← heap.load p
    -- `drop_slow` hands the box to the strategy
    heap.giveAway p (.backdropped strategy)

/-- The only live block that passes a test. -/
def locate (heap : Heap V S) (test : V → Bool) : Except Stop Nat :=
  demandSome ((List.range heap.length).find? fun p => (heap.read p).toOption.any test)
    .useAfterFree

variable {heap next : Heap V S} {p : Nat}

/-- A block is located by a test that no other live block passes. -/
theorem locate_eq {test : V → Bool} {data : V} (here : heap.read p = .ok data)
    (passes : test data = true)
    (unique : ∀ q other, heap.read q = .ok other → test other = true → q = p) :
    heap.locate test = .ok p := by
  unfold locate
  rw [demandSome_eq_ok]
  cases found : (List.range heap.length).find? fun p => (heap.read p).toOption.any test with
  | none =>
      have fails := List.find?_eq_none.mp found p
        (List.mem_range.mpr (lt_length_of_read here))
      simp [here, Except.toOption, passes] at fails
  | some q =>
      have passing := List.find?_some found
      cases read : heap.read q with
      | error stop => simp [read, Except.toOption] at passing
      | ok other =>
          rw [read] at passing
          exact congrArg some (unique q other read (by simpa [Except.toOption] using passing))

/-- A clone counts one more reference, unless there are too many. -/
theorem acquire_spec {old : Nat} (counted : heap.status p = .counted old) :
    if old ≤ maxRefcount word then
      ∃ next, heap.acquire word p = .ok next ∧ heap.Recounts next p (.counted (old + 1))
    else heap.acquire word p = .error .aborted := by
  obtain ⟨block, accessed, rfl⟩ := access_of_counted counted
  have added : heap.fetchAdd word p = .ok (block.count,
      heap.set p { block with count := (block.count + 1) % word.modulus }) :=
    bind_eq_ok.mpr ⟨block, accessed, rfl⟩
  have unfolded : heap.acquire word p =
      (demand (block.count ≤ maxRefcount word) .aborted).bind fun _ =>
        .ok (heap.set p { block with count := (block.count + 1) % word.modulus }) := by
    unfold acquire
    rw [added]
    rfl
  split
  · next few =>
      have recounts := fetchAdd_recounts added
      have below : block.count + 1 < word.modulus := by
        rw [word.modulus_eq]
        unfold maxRefcount at few
        omega
      rw [Nat.mod_eq_of_lt below] at recounts unfolded
      have demanded : demand (block.count ≤ maxRefcount word) Stop.aborted = .ok () :=
        demand_eq_ok.mpr few
      refine ⟨_, ?_, recounts⟩
      rw [unfolded, demanded]
      rfl
  · next many =>
      rw [unfolded]
      simp [demand, many, Except.bind]

theorem avoids_acquire {old : Nat} (counted : heap.status p = .counted old) :
    Avoids Stop.Faulty (heap.acquire word p) := by
  by_cases few : old ≤ maxRefcount word
  · have spec : if old ≤ maxRefcount word then _ else _ := acquire_spec counted
    rw [if_pos few] at spec
    obtain ⟨_, acquired, _⟩ := spec
    exact avoids_ok acquired
  · have spec : if old ≤ maxRefcount word then _ else _ := acquire_spec counted
    rw [if_neg few] at spec
    rw [spec]
    exact avoids_error Stop.not_faulty_aborted

/-- The drop of a handle counts one reference less, and gives the block to the
strategy exactly if it was the last. -/
theorem release_spec {others : Nat} (counted : heap.status p = .counted (others + 1))
    (fits : others + 1 < word.modulus) (strategy : S) :
    ∃ next, heap.release word p strategy = .ok next ∧
      heap.Recounts next p (if others = 0 then .freed else .counted others) ∧
        (others = 0 → next.fateAt p = some (.backdropped strategy)) := by
  obtain ⟨middle, subtracted⟩ := fetchSub_of_counted word counted
  have recounts := fetchSub_recounts subtracted
  rw [show others + 1 + word.modulus - 1 = others + word.modulus by omega,
    Nat.add_mod_right, Nat.mod_eq_of_lt (by omega)] at recounts
  have remaining : middle.status p = .counted others := by
    rw [recounts.changes.status_eq, if_pos rfl]
  by_cases last : others = 0
  · subst last
    obtain ⟨next, given⟩ := giveAway_of_counted (.backdropped strategy) remaining
    refine ⟨next, ?_, ?_, fun _ => fateAt_giveAway given⟩
    · have released : heap.release word p strategy =
          (middle.load p).bind fun _ => middle.giveAway p (.backdropped strategy) := by
        unfold release
        rw [subtracted]
        rfl
      rw [released, load_eq_ok.mpr remaining]
      exact given
    · exact recounts.trans (giveAway_recounts rfl given)
  · refine ⟨middle, ?_, ?_, fun none => absurd none last⟩
    · unfold release
      rw [subtracted]
      simp [bind, Except.bind, last, pure, Except.pure]
    · rwa [if_neg last]

end Heap

/-! ## Addresses -/

namespace Target

variable (target : Target word Ty V)

def inner (ty : Ty) : Shape word :=
  arcInner target.count (.sized (target.elem ty))

/-- `offset_of!(ArcInner<T>, data)`. -/
def dataOffset (ty : Ty) : Nat :=
  target.count.fieldOffset (DataType.sized (target.elem ty)).shape

/-- An access to the `ArcInner<T>` at an address. -/
def arcInnerAt (heap : Heap (Cell Ty V) S) (ty : Ty) (address : Nat)
    [DecidableEq Ty] : Except Stop Nat :=
  heap.locate fun cell => cell.ty = ty ∧ cell.base = address

/-- An access to the `T` at an address, which is inside an `ArcInner<T>`. -/
def dataAt (heap : Heap (Cell Ty V) S) (ty : Ty) (ptr : Nat)
    [DecidableEq Ty] : Except Stop Nat :=
  heap.locate fun cell => cell.ty = ty ∧ cell.base + target.dataOffset ty = ptr

/-- An `ArcInner<T>` at this address is aligned, and its end does not reach the
end of the address space. -/
def Suits (ty : Ty) (base : Nat) : Prop :=
  0 < base ∧ (target.inner ty).align.value ∣ base ∧
    base + (target.inner ty).size < word.modulus

instance (ty : Ty) (base : Nat) : Decidable (target.Suits ty base) :=
  inferInstanceAs (Decidable (_ ∧ _ ∧ _))

/-- The allocator may return this address for a new `ArcInner<T>`. -/
def Vacant (heap : Heap (Cell Ty V) S) (ty : Ty) (base : Nat) : Prop :=
  target.Suits ty base ∧ ∀ block ∈ heap, block.fate.isLive = true →
    base + (target.inner ty).size ≤ block.data.base ∨
      block.data.base + (target.inner block.data.ty).size ≤ base

instance (heap : Heap (Cell Ty V) S) (ty : Ty) (base : Nat) :
    Decidable (target.Vacant heap ty base) :=
  inferInstanceAs (Decidable (_ ∧ _))

theorem two_dvd_align : 2 ∣ target.count.align.value := by
  cases log : target.count.align.log with
  | zero =>
      have small := target.two_le_align
      simp [Alignment.value, log] at small
  | succ log' =>
      rw [Alignment.value, log]
      exact Dvd.intro_left _ (pow_succ 2 log').symm

/-- The data of every block is at an even distance from its start. -/
theorem two_dvd_dataOffset (ty : Ty) : 2 ∣ target.dataOffset ty := by
  have even : 2 ∣ target.count.size := target.two_dvd_align.trans target.count.padded
  unfold dataOffset Shape.fieldOffset
  cases log : (DataType.sized (target.elem ty)).shape.align.log with
  | zero =>
      rw [roundUp_of_dvd]
      · exact even
      · simp [Alignment.value, log]
  | succ log' =>
      have offset := dvd_roundUp target.count.size
        (DataType.sized (target.elem ty)).shape.align
      rw [Alignment.value, log] at offset
      exact (Dvd.intro_left _ (pow_succ 2 log').symm).trans offset

theorem dataOffset_le (ty : Ty) : target.dataOffset ty ≤ (target.inner ty).size :=
  (Nat.le_add_right _ _).trans (Shape.fieldOffset_add_le _ _)

theorem inner_size_pos (ty : Ty) : 0 < (target.inner ty).size :=
  target.size_pos.trans_le ((Shape.le_fieldOffset _ _).trans (target.dataOffset_le ty))

variable {target} {ty : Ty} {base : Nat}

theorem Suits.two_dvd (suits : target.Suits ty base) : 2 ∣ base :=
  (target.two_dvd_align.trans (Alignment.dvd_max_left _ _)).trans suits.2.1

/-- The address of the data leaves the lowest bit free. -/
theorem Suits.two_dvd_data (suits : target.Suits ty base) :
    2 ∣ base + target.dataOffset ty :=
  Nat.dvd_add suits.two_dvd (target.two_dvd_dataOffset ty)

theorem Suits.data_lt (suits : target.Suits ty base) :
    base + target.dataOffset ty < word.modulus :=
  (Nat.add_le_add_left (target.dataOffset_le ty) base).trans_lt suits.2.2

/-- Every live block is where it may be, and no two start at one address. -/
structure Arranged (target : Target word Ty V) (heap : Heap (Cell Ty V) S) : Prop where
  suits : ∀ p cell, heap.read p = .ok cell → target.Suits cell.ty cell.base
  apart : ∀ p q cell other, heap.read p = .ok cell → heap.read q = .ok other →
    cell.base = other.base → p = q

namespace Arranged

variable {heap next : Heap (Cell Ty V) S} {p : Nat} {cell : Cell Ty V}

theorem recounts (arranged : target.Arranged heap) {after : Status}
    (recounts : heap.Recounts next p after)
    (counted : ∃ count, heap.status p = .counted count) : target.Arranged next where
  suits q other here := arranged.suits q other (recounts.read_before counted here)
  apart first second one two here there :=
    arranged.apart first second one two (recounts.read_before counted here)
      (recounts.read_before counted there)

theorem single {block : Block (Cell Ty V) S}
    (suits : target.Suits block.data.ty block.data.base) : target.Arranged [block] := by
  have only {p : Nat} {cell : Cell Ty V}
      (here : Heap.read [block] p = .ok cell) : p = 0 ∧ cell = block.data := by
    have inside := Heap.lt_length_of_read here
    obtain rfl : p = 0 := by simpa using inside
    have found := (Heap.read_eq_ok.mp here).2
    exact ⟨rfl, (Option.some.inj found).symm⟩
  constructor
  · intro p cell here
    obtain ⟨_, rfl⟩ := only here
    exact suits
  · intro p q cell other here there _
    rw [(only here).1, (only there).1]

theorem base_ne_of_vacant (vacant : target.Vacant heap ty base)
    (here : heap.read p = .ok cell) : cell.base ≠ base := by
  obtain ⟨block, accessed, result⟩ := bind_eq_ok.mp here
  obtain rfl := Except.ok.inj result
  obtain ⟨found, live⟩ := Heap.access_eq_ok.mp accessed
  have size := target.inner_size_pos ty
  have otherSize := target.inner_size_pos block.data.ty
  rcases vacant.2 block (List.mem_of_getElem? found) live with before | after
  · omega
  · omega

theorem allocate (arranged : target.Arranged heap) (vacant : target.Vacant heap ty base)
    (data : V) : target.Arranged (heap.allocate ⟨base, ty, data⟩) where
  suits q other here := by
    rw [Heap.read_allocate] at here
    split at here
    · subst here
      exact vacant.1
    · exact arranged.suits q other here
  apart first second one two here there same := by
    rw [Heap.read_allocate] at here there
    split at here
    · next new =>
        split at there
        · next alsoNew => rw [new, alsoNew]
        · subst here
          exact absurd same.symm (base_ne_of_vacant vacant there)
    · split at there
      · subst there
        exact absurd same (base_ne_of_vacant vacant here)
      · exact arranged.apart first second one two here there same

variable [DecidableEq Ty]

theorem arcInnerAt_eq (arranged : target.Arranged heap) (here : heap.read p = .ok cell) :
    arcInnerAt heap cell.ty cell.base = .ok p := by
  refine Heap.locate_eq here (by simp) fun q other there passes => ?_
  have same : other.ty = cell.ty ∧ other.base = cell.base := by simpa using passes
  exact arranged.apart q p other cell there here same.2

theorem dataAt_eq (arranged : target.Arranged heap) (here : heap.read p = .ok cell) :
    target.dataAt heap cell.ty (cell.base + target.dataOffset cell.ty) = .ok p := by
  refine Heap.locate_eq here (by simp) fun q other there passes => ?_
  have same : other.ty = cell.ty ∧ other.base = cell.base := by simpa using passes
  exact arranged.apart q p other cell there here same.2

end Arranged

end Target

end BackdropArc
