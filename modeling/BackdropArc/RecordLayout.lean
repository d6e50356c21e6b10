import BackdropArc.MachineWord

/-!
# Layouts of records and arrays

The shape of a type is its size and alignment.  `Shape.record` places two
fields one after the other, each at the next multiple of its alignment, and
pads the end; `Layout` is the run-time value that an allocator is asked with,
whose operations compute in machine words and refuse to overflow.  Where they
do not refuse, the two agree.
-/

namespace RecordLayout

variable {word : MachineWord}

/-- A power of two that fits into a machine word. -/
structure Alignment (word : MachineWord) where
  log : Nat
  log_lt : log < word.bits
  deriving DecidableEq

namespace Alignment

def value (align : Alignment word) : Nat :=
  2 ^ align.log

def byte : Alignment word :=
  ⟨0, word.bits_pos⟩

protected def max (first second : Alignment word) : Alignment word :=
  ⟨Nat.max first.log second.log, Nat.max_lt.mpr ⟨first.log_lt, second.log_lt⟩⟩

theorem value_pos (align : Alignment word) : 0 < align.value :=
  Nat.two_pow_pos align.log

@[simp]
theorem byte_max (align : Alignment word) : byte.max align = align := by
  cases align with
  | mk log log_lt => simp [byte, Alignment.max]

@[simp]
theorem max_byte (align : Alignment word) : align.max byte = align := by
  cases align with
  | mk log log_lt => simp [byte, Alignment.max]

theorem dvd_max_left (first second : Alignment word) :
    first.value ∣ (first.max second).value :=
  pow_dvd_pow 2 (Nat.le_max_left _ _)

theorem dvd_max_right (first second : Alignment word) :
    second.value ∣ (first.max second).value :=
  pow_dvd_pow 2 (Nat.le_max_right _ _)

theorem le_max_right (first second : Alignment word) :
    second.value ≤ (first.max second).value :=
  Nat.le_of_dvd (value_pos _) (dvd_max_right first second)

theorem dvd_isizeMax_succ (align : Alignment word) :
    align.value ∣ word.isizeMax + 1 := by
  rw [MachineWord.isizeMax_succ]
  exact pow_dvd_pow 2 (Nat.le_sub_one_of_lt align.log_lt)

theorem value_le (align : Alignment word) : align.value ≤ word.isizeMax + 1 :=
  Nat.le_of_dvd (Nat.succ_pos _) align.dvd_isizeMax_succ

end Alignment

def roundUp (size : Nat) (align : Alignment word) : Nat :=
  (size + align.value - 1) / align.value * align.value

theorem dvd_roundUp (size : Nat) (align : Alignment word) :
    align.value ∣ roundUp size align :=
  Nat.dvd_mul_left _ _

theorem le_roundUp (size : Nat) (align : Alignment word) : size ≤ roundUp size align := by
  have division := Nat.div_add_mod (size + align.value - 1) align.value
  have remainder := Nat.mod_lt (size + align.value - 1) align.value_pos
  have commuted := Nat.mul_comm align.value ((size + align.value - 1) / align.value)
  unfold roundUp
  omega

theorem roundUp_lt (size : Nat) (align : Alignment word) :
    roundUp size align < size + align.value := by
  have division := Nat.div_mul_le_self (size + align.value - 1) align.value
  have positive := align.value_pos
  unfold roundUp
  omega

theorem roundUp_of_dvd {size : Nat} {align : Alignment word}
    (multiple : align.value ∣ size) : roundUp size align = size := by
  obtain ⟨count, rfl⟩ := multiple
  have positive := align.value_pos
  have quotient : (align.value * count + align.value - 1) / align.value = count := by
    rw [Nat.add_sub_assoc positive, Nat.mul_add_div positive,
      Nat.div_eq_of_lt (by omega), Nat.add_zero]
  unfold roundUp
  rw [quotient, Nat.mul_comm]

/-- What the allocator interface admits: the size rounded up to the alignment
is at most `isize::MAX`. -/
def Admitted (word : MachineWord) (size : Nat) (align : Alignment word) : Prop :=
  size + align.value ≤ word.isizeMax + 1

instance (size : Nat) (align : Alignment word) : Decidable (Admitted word size align) :=
  inferInstanceAs (Decidable (_ ≤ _))

theorem admitted_iff_roundUp {size : Nat} {align : Alignment word} :
    Admitted word size align ↔ roundUp size align ≤ word.isizeMax := by
  have positive := align.value_pos
  constructor
  · intro admitted
    have rounded := roundUp_lt size align
    unfold Admitted at admitted
    omega
  · intro small
    obtain ⟨whole, whole_eq⟩ := align.dvd_isizeMax_succ
    obtain ⟨count, count_eq⟩ := dvd_roundUp size align
    have above := le_roundUp size align
    have fewer : count < whole := by
      apply Nat.lt_of_mul_lt_mul_left (a := align.value)
      omega
    have step := Nat.mul_le_mul_left align.value fewer
    unfold Admitted
    rw [Nat.mul_succ] at step
    omega

/-! ## Shapes -/

/-- Size and alignment of a type.  The size is a multiple of the alignment. -/
structure Shape (word : MachineWord) where
  size : Nat
  align : Alignment word
  padded : align.value ∣ size

namespace Shape

def unit : Shape word :=
  ⟨0, .byte, Nat.dvd_zero _⟩

def byte : Shape word :=
  ⟨1, .byte, Nat.one_dvd _⟩

def array (elem : Shape word) (len : Nat) : Shape word :=
  ⟨elem.size * len, elem.align, Nat.dvd_mul_right_of_dvd elem.padded len⟩

/-- Where the second of two fields is placed. -/
def fieldOffset (first second : Shape word) : Nat :=
  roundUp first.size second.align

/-- The shape of a record of two fields in the order they are declared in. -/
def record (first second : Shape word) : Shape word :=
  ⟨roundUp (first.fieldOffset second + second.size) (first.align.max second.align),
    first.align.max second.align, dvd_roundUp _ _⟩

@[simp]
theorem record_align (first second : Shape word) :
    (first.record second).align = first.align.max second.align :=
  rfl

/-- The fields of a record do not overlap and lie within it. -/
theorem le_fieldOffset (first second : Shape word) :
    first.size ≤ first.fieldOffset second :=
  le_roundUp _ _

theorem fieldOffset_add_le (first second : Shape word) :
    first.fieldOffset second + second.size ≤ (first.record second).size :=
  le_roundUp _ _

/-- An address that suits the record suits both of its fields. -/
theorem record_fields_aligned (first second : Shape word) {base : Nat}
    (aligned : (first.record second).align.value ∣ base) :
    first.align.value ∣ base ∧ second.align.value ∣ base + first.fieldOffset second :=
  ⟨(Alignment.dvd_max_left _ _).trans aligned,
    Nat.dvd_add ((Alignment.dvd_max_right _ _).trans aligned) (dvd_roundUp _ _)⟩

@[simp]
theorem fieldOffset_unit (second : Shape word) : unit.fieldOffset second = 0 :=
  roundUp_of_dvd (Nat.dvd_zero _)

@[simp]
theorem record_unit (second : Shape word) : unit.record second = second := by
  cases second with
  | mk size align padded =>
      simp [record, fieldOffset, unit, roundUp_of_dvd padded,
        roundUp_of_dvd (Nat.dvd_zero align.value)]

@[simp]
theorem record_of_unit (first : Shape word) : first.record unit = first := by
  cases first with
  | mk size align padded =>
      have whole : roundUp size (.byte : Alignment word) = size :=
        roundUp_of_dvd (Nat.one_dvd _)
      simp [record, fieldOffset, unit, whole, roundUp_of_dvd padded]

end Shape

/-! ## Placement -/

/-- The parts of a value: where each starts, and its shape. -/
abbrev Parts (word : MachineWord) :=
  List (Nat × Shape word)

/-- The same parts in a value that starts further on. -/
def Parts.shift (offset : Nat) (parts : Parts word) : Parts word :=
  parts.map fun part => (offset + part.1, part.2)

@[simp]
theorem Parts.shift_zero (parts : Parts word) : parts.shift 0 = parts := by
  simp [Parts.shift]

/-- The parts lie within the whole, are aligned wherever the whole is, and do
not overlap. -/
structure Placed (whole : Shape word) (parts : Parts word) : Prop where
  inside : ∀ part ∈ parts, part.1 + part.2.size ≤ whole.size
  aligned : ∀ part ∈ parts, ∀ base, whole.align.value ∣ base →
    part.2.align.value ∣ base + part.1
  apart : parts.Pairwise fun first second => first.1 + first.2.size ≤ second.1

namespace Placed

variable {whole first second : Shape word} {parts : Parts word}

theorem nil (whole : Shape word) : Placed whole [] :=
  ⟨by simp, by simp, .nil⟩

theorem single (whole : Shape word) : Placed whole [(0, whole)] :=
  ⟨by simp, by simp, List.pairwise_singleton _ _⟩

theorem array (elem : Shape word) (len : Nat) :
    Placed (elem.array len) ((List.range len).map fun i => (elem.size * i, elem)) where
  inside part member := by
    obtain ⟨i, inside, rfl⟩ := List.mem_map.mp member
    have next := Nat.mul_le_mul_left elem.size (List.mem_range.mp inside)
    rwa [Nat.mul_succ] at next
  aligned part member base aligned := by
    obtain ⟨i, _, rfl⟩ := List.mem_map.mp member
    exact Nat.dvd_add aligned (Nat.dvd_mul_right_of_dvd elem.padded i)
  apart := by
    refine List.pairwise_map.mpr (List.pairwise_lt_range.imp fun {i j} before => ?_)
    have next := Nat.mul_le_mul_left elem.size before
    rwa [Nat.mul_succ] at next

theorem shift (placed : Placed second parts) (first : Shape word) :
    Placed (first.record second) (parts.shift (first.fieldOffset second)) where
  inside part member := by
    obtain ⟨inner, inside, rfl⟩ := List.mem_map.mp member
    have within := placed.inside inner inside
    have field := first.fieldOffset_add_le second
    simp only
    omega
  aligned part member base aligned := by
    obtain ⟨inner, inside, rfl⟩ := List.mem_map.mp member
    have field := (first.record_fields_aligned second aligned).2
    rw [← Nat.add_assoc]
    exact placed.aligned inner inside _ field
  apart := by
    refine List.pairwise_map.mpr (placed.apart.imp fun {a b} before => ?_)
    simp only
    omega

/-- The parts of a record are the parts of its fields. -/
theorem append {firstParts : Parts word} (placedFirst : Placed first firstParts)
    (placed : Placed second parts) :
    Placed (first.record second)
      (firstParts ++ parts.shift (first.fieldOffset second)) where
  inside part member := by
    rcases List.mem_append.mp member with here | later
    · have within := placedFirst.inside part here
      have field := first.fieldOffset_add_le second
      have before := first.le_fieldOffset second
      omega
    · exact (placed.shift first).inside part later
  aligned part member base aligned := by
    rcases List.mem_append.mp member with here | later
    · exact placedFirst.aligned part here base
        (first.record_fields_aligned second aligned).1
    · exact (placed.shift first).aligned part later base aligned
  apart := by
    refine List.pairwise_append.mpr
      ⟨placedFirst.apart, (placed.shift first).apart, fun part here other later => ?_⟩
    obtain ⟨inner, _, rfl⟩ := List.mem_map.mp later
    have within := placedFirst.inside part here
    have before := first.le_fieldOffset second
    simp only
    omega

end Placed

/-! ## Layouts -/

/-- A size and alignment that an allocator may be asked for.  The size need not
be a multiple of the alignment. -/
structure Layout (word : MachineWord) where
  size : Nat
  align : Alignment word
  admitted : Admitted word size align

namespace Layout

/-- `Layout::from_size_align`, whose alignment is known to be a power of two. -/
def fromSizeAlign (size : Nat) (align : Alignment word) : Option (Layout word) :=
  if admitted : Admitted word size align then some ⟨size, align, admitted⟩ else none

/-- `Layout::new`, for a type that exists: no type is larger than `isize::MAX`. -/
def new (shape : Shape word) (exists_ : shape.size ≤ word.isizeMax) : Layout word :=
  ⟨shape.size, shape.align,
    admitted_iff_roundUp.mpr (by rwa [roundUp_of_dvd shape.padded])⟩

def paddingNeededFor (layout : Layout word) (align : Alignment word) : Nat :=
  let sum := word.wrappingSub (word.wrappingAdd layout.size align.value) 1
  let roundedUp := sum &&& word.complement (word.wrappingSub align.value 1)
  word.wrappingSub roundedUp layout.size

theorem paddingNeededFor_eq (layout : Layout word) (align : Alignment word) :
    layout.paddingNeededFor align = roundUp layout.size align - layout.size := by
  have width := word.modulus_eq
  have positive := align.value_pos
  have bounded := align.value_le
  have admitted := layout.admitted
  have above := le_roundUp layout.size align
  have below := roundUp_lt layout.size align
  have own := layout.align.value_pos
  unfold Admitted at admitted
  have added : word.wrappingAdd layout.size align.value = layout.size + align.value :=
    word.wrappingAdd_eq (by omega)
  have sum : word.wrappingSub (layout.size + align.value) 1 =
      layout.size + align.value - 1 :=
    word.wrappingSub_eq (by omega) (by omega)
  have lowBits : word.wrappingSub align.value 1 = align.value - 1 :=
    word.wrappingSub_eq (by omega) (by omega)
  have masked : (layout.size + align.value - 1) &&& word.complement (align.value - 1) =
      roundUp layout.size align :=
    word.and_complement_mask (by omega) align.log_lt.le
  simp only [paddingNeededFor, added, sum, lowBits, masked]
  exact word.wrappingSub_eq (by omega) above

/-- `Layout::extend`: the layout of both parts and the offset of the second. -/
def extend (layout next : Layout word) : Option (Layout word × Nat) := do
  let offset ← word.checkedAdd layout.size (layout.paddingNeededFor next.align)
  let size ← word.checkedAdd offset next.size
  let extended ← fromSizeAlign size (layout.align.max next.align)
  pure (extended, offset)

/-- `extend` refuses exactly the sizes that are not admitted. -/
theorem extend_eq (layout next : Layout word) :
    layout.extend next =
      if admitted : Admitted word (roundUp layout.size next.align + next.size)
          (layout.align.max next.align) then
        some (⟨roundUp layout.size next.align + next.size,
          layout.align.max next.align, admitted⟩, roundUp layout.size next.align)
      else none := by
  have width := word.modulus_eq
  have bounded := next.align.value_le
  have above := le_roundUp layout.size next.align
  have below := roundUp_lt layout.size next.align
  have own := layout.align.value_pos
  have small := layout.admitted
  unfold Admitted at small
  have offset : word.checkedAdd layout.size (layout.paddingNeededFor next.align) =
      some (roundUp layout.size next.align) := by
    rw [paddingNeededFor_eq, MachineWord.checkedAdd, Nat.add_sub_cancel' above,
      if_pos (by omega)]
  unfold extend
  rw [offset]
  simp only [Option.bind_eq_bind, Option.bind_some, MachineWord.checkedAdd,
    fromSizeAlign]
  by_cases admitted : Admitted word (roundUp layout.size next.align + next.size)
      (layout.align.max next.align)
  · have fits := admitted
    unfold Admitted at fits
    rw [dif_pos admitted, if_pos (by omega)]
    simp [admitted]
  · rw [dif_neg admitted]
    split <;> simp [admitted]

theorem extend_of_admitted (layout next : Layout word)
    (admitted : Admitted word (roundUp layout.size next.align + next.size)
      (layout.align.max next.align)) :
    ∃ extended offset, layout.extend next = some (extended, offset) ∧
      extended.size = roundUp layout.size next.align + next.size ∧
        extended.align = layout.align.max next.align ∧
          offset = roundUp layout.size next.align := by
  rw [extend_eq, dif_pos admitted]
  exact ⟨_, _, rfl, rfl, rfl, rfl⟩

theorem extend_of_refused {layout next : Layout word}
    (refused : ¬ Admitted word (roundUp layout.size next.align + next.size)
      (layout.align.max next.align)) : layout.extend next = none := by
  rw [extend_eq, dif_neg refused]

def padToAlign (layout : Layout word) : Layout word where
  size := layout.size + layout.paddingNeededFor layout.align
  align := layout.align
  admitted := by
    have rounded := admitted_iff_roundUp.mp layout.admitted
    have above := le_roundUp layout.size layout.align
    rw [paddingNeededFor_eq, Nat.add_sub_cancel' above, admitted_iff_roundUp,
      roundUp_of_dvd (dvd_roundUp _ _)]
    exact rounded

theorem padToAlign_size (layout : Layout word) :
    layout.padToAlign.size = roundUp layout.size layout.align := by
  have above := le_roundUp layout.size layout.align
  have padding := layout.paddingNeededFor_eq layout.align
  simp only [padToAlign]
  omega

@[simp]
theorem padToAlign_align (layout : Layout word) :
    layout.padToAlign.align = layout.align :=
  rfl

/-- `Layout::array` checks a product without computing it. -/
def ArrayTooLong (elem : Shape word) (len : Nat) : Prop :=
  elem.size ≠ 0 ∧ (word.isizeMax + 1 - elem.align.value) / elem.size < len

instance (elem : Shape word) (len : Nat) : Decidable (ArrayTooLong elem len) :=
  inferInstanceAs (Decidable (_ ∧ _))

theorem not_arrayTooLong_iff {elem : Shape word} {len : Nat} :
    ¬ ArrayTooLong elem len ↔ Admitted word (elem.size * len) elem.align := by
  have bounded := elem.align.value_le
  unfold ArrayTooLong Admitted
  rcases Nat.eq_zero_or_pos elem.size with empty | positive
  · simp [empty, bounded]
  · have division := Nat.le_div_iff_mul_le positive (x := len)
      (y := word.isizeMax + 1 - elem.align.value)
    rw [Nat.mul_comm] at division
    omega

def array (elem : Shape word) (len : Nat) : Option (Layout word) :=
  if tooLong : ArrayTooLong elem len then none
  else some ⟨elem.size * len, elem.align, not_arrayTooLong_iff.mp tooLong⟩

theorem array_of_admitted {elem : Shape word} {len : Nat}
    (admitted : Admitted word (elem.size * len) elem.align) :
    array elem len = some ⟨elem.size * len, elem.align, admitted⟩ :=
  dif_neg (not_arrayTooLong_iff.mpr admitted)

theorem array_of_refused {elem : Shape word} {len : Nat}
    (refused : ¬ Admitted word (elem.size * len) elem.align) : array elem len = none :=
  dif_pos (by_contra fun short => refused (not_arrayTooLong_iff.mp short))

end Layout

end RecordLayout
