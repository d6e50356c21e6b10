import BackdropArc.FromIter
import BackdropArc.PayloadDrops

/-!
# Constructors for slices

There are four ways to fill a new block with a slice: from an iterator, from a
slice of `Copy` values, from a vector, and, for a single value, from a box.  The
last two copy the values bitwise while their source still has them, and then keep
the source from dropping them, each in its own way.  All build the same block.
-/

namespace BackdropArc

open UnwindingCode GuardedRuns

/-- The elements of a slice, numbered by their positions. -/
def numbered {T : Type} (xs : List T) : List (Item T) :=
  xs.mapIdx Item.mk

/-- A block with count 1 that is initialized completely. -/
def RawBlock.full {H T : Type} (header : H) (xs : List T) : RawBlock H T :=
  ⟨1, some header, (numbered xs).map some⟩

/-- A `HeaderSlice<H, [T]>`. -/
structure HeaderSlice (H T : Type) where
  header : H
  slice : List (Item T)
  deriving DecidableEq, Repr

/-- The values that the destructor of a `HeaderSlice` drops, in order. -/
def HeaderSlice.glue {H T : Type} (data : HeaderSlice H T) : List Dropped :=
  .header :: data.slice.map fun item => .item item.call

/-- The data of a block, if no part of it is uninitialized. -/
def RawBlock.data {H T : Type} (block : RawBlock H T) : Option (HeaderSlice H T) := do
  let header ← block.header
  let slice ← block.slots.mapM id
  pure ⟨header, slice⟩

/-- A `Vec<T>`: a buffer of which the first `len` slots are initialized. -/
structure Vec (T : Type) where
  buffer : List (Option (Item T))
  len : Nat
  fits : len ≤ buffer.length
  initialized : ∀ slot ∈ buffer.take len, slot.isSome = true

namespace Vec

variable {T : Type}

def capacity (v : Vec T) : Nat :=
  v.buffer.length

def items (v : Vec T) : List (Item T) :=
  (v.buffer.take v.len).filterMap id

/-- `Vec::set_len`, with its safety conditions as arguments. -/
def setLen (v : Vec T) (len : Nat) (fits : len ≤ v.buffer.length)
    (initialized : ∀ slot ∈ v.buffer.take len, slot.isSome = true) : Vec T :=
  ⟨v.buffer, len, fits, initialized⟩

theorem length_items (v : Vec T) : v.items.length = v.len := by
  have all : ∀ slots : List (Option (Item T)), (∀ slot ∈ slots, slot.isSome = true) →
      (slots.filterMap id).length = slots.length := by
    intro slots some
    induction slots with
    | nil => rfl
    | cons slot slots ih =>
        obtain ⟨item, rfl⟩ := Option.isSome_iff_exists.mp (some slot List.mem_cons_self)
        have rest := ih fun other member => some other (List.mem_cons_of_mem _ member)
        simpa using rest
  rw [items, all _ v.initialized, List.length_take, Nat.min_eq_left v.fits]

end Vec

/-- A `String`: its text and the capacity of its buffer. -/
structure StringBuf where
  text : String
  capacity : Nat
  fits : text.toUTF8.size ≤ capacity

def utf8 (text : String) : List UInt8 :=
  text.toUTF8.data.toList

/-- What the type of a `Box` says about its content. -/
inductive Content
  | plain
  | manuallyDrop
  deriving DecidableEq, Repr

/-- A construction from a source that has a buffer of its own. -/
structure Moving (H T : Type) extends Making H T where
  /-- How many buffers were given back to the allocator. -/
  frees : Nat
  deriving DecidableEq, Repr

/-- How many buffers hold `capacity` elements: an empty one has no memory. -/
def buffers {word : MachineWord} (elem : ElemType word) (capacity : Nat) : Nat :=
  if elem.shape.size * capacity = 0 then 0 else 1

namespace Moving

variable {word : MachineWord} {H T : Type}

def start : Moving H T :=
  { toMaking := .start, frees := 0 }

def free (elem : ElemType word) (capacity : Nat) (s : Moving H T) : Moving H T :=
  { s with frees := s.frees + buffers elem capacity }

def dropItems (items : List (Item T)) (s : Moving H T) : Moving H T :=
  { s with dropped := s.dropped ++ items.map fun item => .item item.call }

/-- The destructor of a `Vec`. -/
def dropVec (elem : ElemType word) (v : Vec T) (s : Moving H T) : Moving H T :=
  (s.dropItems v.items).free elem v.capacity

/-- The destructor of a `Box`. -/
def dropBox (elem : ElemType word) (content : Content) (item : Item T) (s : Moving H T) :
    Moving H T :=
  match content with
  | .plain => (s.dropItems [item]).free elem 1
  | .manuallyDrop => s.free elem 1

/-- A panic drops what is still in a variable; an abort does not. -/
def unlessAborted (cleanup : Moving H T → Moving H T) (exit : Exit) (s : Moving H T) :
    Moving H T :=
  if exit = .aborted then s else cleanup s

end Moving

abbrev Move (H T : Type) :=
  EStateM Exit (Moving H T)

namespace Make

variable {word : MachineWord} {H T : Type} (site : Site word)

/-- Code that does not touch the buffer of the source. -/
def lift {Value : Type} (code : Make H T Value) : Move H T Value := fun s =>
  match code s.toMaking with
  | .ok value after => .ok value { s with toMaking := after }
  | .error exit after => .error exit { s with toMaking := after }

/-- `from_header_and_slice`, up to the pointer to the block. -/
def fromHeaderAndSlice (header : H) (items : List T) : Make H T Unit := do
  onExit dropHeader do
    assert (site.elem.shape.size ≠ 0) "Need to think about ZST"
    allocate site items.length
  writeHeader header
  copySlots (numbered items)

/-- `From<&[T]>`. -/
def fromSlice (slice : List T) : Make Unit T Unit := do
  fromHeaderAndSlice site.slice () slice
  into site

end Make

/-- The layouts of slices of bytes. -/
def Site.bytes {word : MachineWord} (site : Site word) : Site word :=
  { site with elem := .u8 }

namespace Make

variable {word : MachineWord} {H T : Type} (site : Site word)

/-- `from_header_and_str`: the cast from `[u8]` to `str` leaves the block alone. -/
def fromHeaderAndStr (header : H) (string : String) : Make H UInt8 Unit :=
  fromHeaderAndSlice site.bytes header (utf8 string)

/-- `From<Arc<HeaderSlice<(), T>>> for Arc<T>` at `str`. -/
def intoStr (word : MachineWord) : Make H UInt8 Unit :=
  assertBlock fun block =>
    let data : DataType word := .str block.slots.length
    (DataType.headerSlice .unit data).shape.size = data.shape.size ∧
      (DataType.headerSlice .unit data).shape.align = data.shape.align

/-- `From<&str>`. -/
def fromStr (s : String) : Make Unit UInt8 Unit := do
  fromHeaderAndStr site.slice () s
  intoStr word

/-- `allocate_for_layout` for a single value, which has no header and one slot. -/
def allocateValue (elemFits : site.elem.shape.size ≤ word.isizeMax) : Make Unit T Unit :=
  fun s =>
    match allocateForLayout site.count site.countFits (.new site.elem.shape elemFits)
        (arcInner site.count (.sized site.elem)) with
    | .error panic => .error (.layout panic) s
    | .ok layout =>
        if site.memory layout then .ok () { s with block := some ⟨1, some (), [none]⟩ }
        else .error .aborted s

end Make

namespace Move

variable {word : MachineWord} {H T : Type} (site : Site word)

/-- `from_header_and_vec`, with the destructor of `v`. -/
def fromHeaderAndVec (header : H) (v : Vec T) : Move H T Unit := do
  onExit (Moving.unlessAborted (Moving.free site.elem v.capacity))
    (Make.fromHeaderAndVec site header v.items).lift
  -- The elements are in the buffer and in the block now.
  let v := v.setLen 0 (Nat.zero_le _) (by simp)
  modify (Moving.dropVec site.elem v)

/-- `From<Vec<T>>`. -/
def fromVec (v : Vec T) : Move Unit T Unit := do
  fromHeaderAndVec site.slice () v
  (Make.into site).lift

/-- `From<String>`, with the destructor of `s`. -/
def fromString (s : StringBuf) : Move Unit UInt8 Unit := do
  onExit (Moving.unlessAborted (Moving.free site.bytes.elem s.capacity))
    (Make.fromStr site s.text).lift
  modify (Moving.free site.bytes.elem s.capacity)

/-- `From<Box<T>>`. -/
def fromBox (elemFits : site.elem.shape.size ≤ word.isizeMax) (b : Item T) :
    Move Unit T Unit := do
  onExit (Moving.unlessAborted (Moving.dropBox site.elem .plain b))
    (Make.allocateValue site elemFits).lift
  -- `Box::into_raw` gives up the destructor.
  (Make.copySlots [b]).lift
  modify (Moving.dropBox site.elem .manuallyDrop b)

end Move

/-! ## What the constructors build -/

/-- Code that does not touch the buffer of the source leaves it as it is. -/
theorem Make.lift_spec {H T Value : Type} {code : Make H T Value}
    {before : Making H T → Prop} {returns : Value → Making H T → Prop}
    {exits : Exit → Making H T → Prop} (spec : Spec before code returns exits)
    (frees : Nat) :
    Spec (fun s : Moving H T => before s.toMaking ∧ s.frees = frees) code.lift
      (fun value s => returns value s.toMaking ∧ s.frees = frees)
      fun exit s => exits exit s.toMaking := by
  rintro s ⟨holds, kept⟩
  have result := spec s.toMaking holds
  unfold lift
  cases ran : code s.toMaking with
  | ok value after =>
      rw [ran] at result
      exact ⟨result, kept⟩
  | error exit after =>
      rw [ran] at result
      exact result

/-- There is no memory for the block, or its size is not admitted. -/
def Exit.Refusal (exit : Exit) : Prop :=
  exit = .aborted ∨ ∃ panic, exit = .layout panic

/-- With memory the construction builds the block, drops nothing and frees so many
buffers; without memory it does not return. -/
structure Builds {H T : Type} (code : Move H T Unit) (allocates : Prop)
    (block : RawBlock H T) (frees : Nat) : Prop where
  returns : allocates → Spec (· = .start) code
    (fun _ s => s.block = some block ∧ s.dropped = [] ∧ s.frees = frees) fun _ _ => False
  refused : ¬ allocates → Spec (· = .start) code (fun _ _ => False) fun exit _ => exit.Refusal

namespace Builds

variable {H T : Type} {allocates : Prop} {block : RawBlock H T} {frees : Nat}

/-- A construction without a buffer to free. -/
theorem of_lift {code : Make H T Unit}
    (returns : allocates → Spec (· = .start) code
      (fun _ s => s.block = some block ∧ s.dropped = []) fun _ _ => False)
    (refused : ¬ allocates →
      Spec (· = .start) code (fun _ _ => False) fun exit _ => exit.Refusal) :
    Builds code.lift allocates block 0 where
  returns granted :=
    (Make.lift_spec (returns granted) 0).consequence
      (fun s initial => by
        subst initial
        exact ⟨rfl, rfl⟩)
      (fun _ _ built => ⟨built.1.1, built.1.2, built.2⟩) fun _ _ impossible => impossible
  refused denied :=
    (Make.lift_spec (refused denied) 0).consequence
      (fun s initial => by
        subst initial
        exact ⟨rfl, rfl⟩)
      (fun _ _ built => built.1) fun _ _ refusal => refusal

theorem onExit {code : Move H T Unit} (builds : Builds code allocates block frees)
    (cleanup : Exit → Moving H T → Moving H T) :
    Builds (onExit cleanup code) allocates block frees where
  returns granted := .onExit (builds.returns granted)
  refused denied := .onExit (builds.refused denied)

theorem run {code : Move H T Unit} (builds : Builds code allocates block frees)
    (granted : allocates) :
    ∃ s, code .start = .ok () s ∧ s.block = some block ∧ s.dropped = [] ∧ s.frees = frees := by
  have result := builds.returns granted .start rfl
  cases ran : code .start with
  | ok value after =>
      rw [ran] at result
      exact ⟨after, rfl, result⟩
  | error exit after =>
      rw [ran] at result
      exact result.elim

/-- What follows the construction of the block. -/
theorem andThen {code rest : Move H T Unit} {block' : RawBlock H T} {frees' : Nat}
    (builds : Builds code allocates block frees)
    (follows : Spec (fun s => s.block = some block ∧ s.dropped = [] ∧ s.frees = frees) rest
      (fun _ s => s.block = some block' ∧ s.dropped = [] ∧ s.frees = frees')
      fun _ _ => False) :
    Builds (code >>= fun _ => rest) allocates block' frees' where
  returns granted := (builds.returns granted).bind fun _ => follows
  refused denied := (builds.refused denied).bind fun _ _ impossible => impossible.elim

end Builds

theorem Make.allocate_refuses {word : MachineWord} {H T : Type} {site : Site word} {n : Nat}
    {before : Making H T → Prop} (denied : ¬ site.Allocates n) :
    Spec before (allocate site n) (fun _ _ => False) fun exit _ => exit.Refusal :=
  allocate_spec.consequence (fun _ holds => holds) (fun _ _ made => denied made.1)
    fun _ _ failed => failed.2.2.symm

/-! ## From an iterator -/

/-- A fused iterator over `xs` that reports the right length. -/
structure Items.Honest {T : Type} (items : Items T) (xs : List T) : Prop where
  len : items.len = some xs.length
  next : ∀ call, items.next call = (xs[call]?).elim .none .some

namespace Items.Honest

variable {H T : Type} {items : Items T} {xs : List T}

theorem next_of_lt (honest : items.Honest xs) {call : Nat} (inside : call < xs.length) :
    items.next call = .some xs[call] := by
  simp [honest.next, inside]

theorem next_of_le (honest : items.Honest xs) {call : Nat} (outside : xs.length ≤ call) :
    items.next call = .none := by
  simp [honest.next, List.getElem?_eq_none outside]

theorem exact (honest : items.Honest xs) : items.Exact xs.length := by
  intro call _
  split
  · next inside => exact ⟨_, honest.next_of_lt inside⟩
  · next outside => exact honest.next_of_le (Nat.le_of_not_lt outside)

/-- The construction from an honest iterator can only lack memory. -/
theorem refusal_of_fails {word : MachineWord} {site : Site word} {exit : Exit}
    {s : Making H T} (honest : items.Honest xs) (sized : site.elem.shape.size ≠ 0)
    (fails : Fails site items exit s) : exit.Refusal := by
  have length {n : Nat} (reported : items.len = some n) : n = xs.length :=
    Option.some.inj (reported.symm.trans honest.len)
  cases fails with
  | refused exit reason =>
      cases reason with
      | sizeZero size => exact absurd size sized
      | len missing => simp [honest.len] at missing
      | layout n panic => exact Or.inr ⟨panic, rfl⟩
      | memory n => exact Or.inl rfl
  | overReported n s call reported _ inside reply =>
      obtain rfl := length reported
      simp [honest.next_of_lt inside] at reply
  | underReported n s call value reported _ outside _ reply =>
      obtain rfl := length reported
      simp [honest.next_of_le outside] at reply
  | iterator n s call reported _ _ reply =>
      rcases Nat.lt_or_ge call xs.length with inside | outside
      · simp [honest.next_of_lt inside] at reply
      · simp [honest.next_of_le outside] at reply

theorem full_of_complete (honest : items.Honest xs) {header : H} {block : RawBlock H T}
    (complete : Complete items header xs.length block) : block = .full header xs := by
  obtain ⟨count, stored, slots⟩ := block
  obtain rfl : count = 1 := complete.count
  obtain rfl : stored = some header := complete.header
  have length : slots.length = xs.length := complete.length
  have same : slots = (numbered xs).map some := by
    apply List.ext_getElem?
    intro i
    by_cases inside : i < xs.length
    · obtain ⟨value, reply, found⟩ := complete.slots i inside
      obtain rfl : xs[i] = value := by simpa [honest.next_of_lt inside] using reply
      simp only at found
      simp [found, numbered, inside]
    · rw [List.getElem?_eq_none (by omega), List.getElem?_eq_none (by simp [numbered]; omega)]
  rw [same]
  rfl

end Items.Honest

theorem fromHeaderAndIter_builds {word : MachineWord} {H T : Type} {site : Site word}
    {items : Items T} {xs : List T} (header : H) (honest : items.Honest xs)
    (sized : site.elem.shape.size ≠ 0) :
    Builds (Make.fromHeaderAndIter site items header).lift (site.Allocates xs.length)
      (.full header xs) 0 := by
  have spec : Spec (· = Making.start) (Make.fromHeaderAndIter site items header) _
    (Fails site items) := Make.fromHeaderAndIter_spec
  apply Builds.of_lift
  · intro granted
    refine spec.consequence (fun _ initial => initial) ?_ ?_
    · rintro _ s ⟨_, n, _, writing⟩
      obtain rfl : n = xs.length := Option.some.inj (writing.len.symm.trans honest.len)
      obtain ⟨block, stored, complete⟩ := writing.complete (Make.le_callsMade _)
      exact ⟨honest.full_of_complete complete ▸ stored, writing.dropped⟩
    · exact fun _ _ fails => fails.not_exact sized honest.len granted honest.exact
  · intro denied
    refine spec.consequence (fun _ initial => initial) ?_ ?_
    · rintro _ s ⟨_, n, allocates, writing⟩
      obtain rfl : n = xs.length := Option.some.inj (writing.len.symm.trans honest.len)
      exact denied allocates
    · exact fun _ _ fails => honest.refusal_of_fails sized fails

/-! ## From a slice or a string -/

theorem Make.fillSlots_spec {H T : Type} {header : H} {xs : List T} :
    Spec (· = (⟨0, some ⟨1, none, List.replicate xs.length none⟩, []⟩ : Making H T))
      (writeHeader header >>= fun _ => copySlots (numbered xs))
      (fun _ s => s.block = some (.full header xs) ∧ s.dropped = []) fun _ _ => False := by
  rintro s rfl
  simp [writeHeader, copySlots, bind, EStateM.bind, numbered, RawBlock.full]

theorem fromHeaderAndSlice_builds {word : MachineWord} {H T : Type} {site : Site word}
    (header : H) (xs : List T) (sized : site.elem.shape.size ≠ 0) :
    Builds (Make.fromHeaderAndSlice site header xs).lift (site.Allocates xs.length)
      (.full header xs) 0 := by
  have passes (exits : Exit → Making H T → Prop) :
      Spec (· = .start) (Make.assert (site.elem.shape.size ≠ 0) "Need to think about ZST") _
        exits := Make.assert_spec fun _ _ size => absurd sized size
  apply Builds.of_lift
  · intro granted
    have allocated : Spec (· = .start) _
        (fun _ s => s = (⟨0, some ⟨1, none, List.replicate xs.length none⟩, []⟩ : Making H T))
        fun _ _ => False := (passes _).bind fun _ =>
      Make.allocate_spec.consequence (fun _ holds => holds)
        (fun _ _ made => by
          obtain ⟨_, _, ⟨_, rfl⟩, rfl⟩ := made
          rfl)
        fun _ _ failed => failed.2.1 granted
    exact (Spec.onExit allocated).bind fun _ => Make.fillSlots_spec
  · intro denied
    have refused : Spec (· = .start) _ (fun _ _ => False)
        fun (exit : Exit) (_ : Making H T) => exit.Refusal :=
      (passes _).bind fun _ => Make.allocate_refuses denied
    exact (Spec.onExit refused).bind fun _ _ impossible => impossible.elim

theorem Make.lift_bind {H T Value Next : Type} (code : Make H T Value)
    (rest : Value → Make H T Next) :
    (code >>= rest).lift = code.lift >>= fun value => (rest value).lift := by
  funext s
  simp only [lift, bind, EStateM.bind]
  cases ran : code s.toMaking <;> rfl

/-- A later step of a construction that changes only the block. -/
theorem Make.lift_keeps {H T : Type} {code : Make H T Unit} {block block' : RawBlock H T}
    (follows : Spec (fun s : Making H T => s.block = some block ∧ s.dropped = []) code
      (fun _ s => s.block = some block' ∧ s.dropped = []) fun _ _ => False) (frees : Nat) :
    Spec (fun s : Moving H T => s.block = some block ∧ s.dropped = [] ∧ s.frees = frees)
      code.lift (fun _ s => s.block = some block' ∧ s.dropped = [] ∧ s.frees = frees)
      fun _ _ => False :=
  (lift_spec follows frees).consequence
    (fun _ built => ⟨⟨built.1, built.2.1⟩, built.2.2⟩)
    (fun _ _ built => ⟨built.1.1, built.1.2, built.2⟩) fun _ _ impossible => impossible

/-- The test of the layouts passes for every block with an empty header. -/
theorem Make.into_keeps {word : MachineWord} {T : Type} (site : Site word)
    {block : RawBlock Unit T} :
    Spec (fun s : Making Unit T => s.block = some block ∧ s.dropped = []) (into site)
      (fun _ s => s.block = some block ∧ s.dropped = []) fun _ _ => False := by
  rintro s ⟨stored, kept⟩
  simp [into, assertBlock, stored, DataType.shape, ElemType.shape, kept]

theorem fromSlice_builds {word : MachineWord} {T : Type} {site : Site word} (xs : List T)
    (sized : site.elem.shape.size ≠ 0) :
    Builds (Make.fromSlice site xs).lift (site.slice.Allocates xs.length) (.full () xs) 0 := by
  have built := fromHeaderAndSlice_builds () xs (show site.slice.elem.shape.size ≠ 0 from sized)
  unfold Make.fromSlice
  rw [Make.lift_bind]
  exact built.andThen (Make.lift_keeps (Make.into_keeps site) 0)

theorem fromHeaderAndStr_builds {word : MachineWord} {H : Type} (site : Site word)
    (header : H) (text : String) :
    Builds (Make.fromHeaderAndStr site header text).lift
      (site.bytes.Allocates (utf8 text).length) (.full header (utf8 text)) 0 :=
  fromHeaderAndSlice_builds header (utf8 text) (show (1 : Nat) ≠ 0 from Nat.one_ne_zero)

theorem fromStr_builds {word : MachineWord} (site : Site word) (text : String) :
    Builds (Make.fromStr site text).lift (site.slice.bytes.Allocates (utf8 text).length)
      (.full () (utf8 text)) 0 := by
  unfold Make.fromStr
  rw [Make.lift_bind]
  exact (fromHeaderAndStr_builds site.slice () text).andThen
    (Make.lift_keeps (Make.into_keeps site.bytes) 0)

theorem fromString_builds {word : MachineWord} (site : Site word) (s : StringBuf) :
    Builds (Move.fromString site s) (site.slice.bytes.Allocates (utf8 s.text).length)
      (.full () (utf8 s.text)) (buffers site.bytes.elem s.capacity) := by
  apply ((fromStr_builds site s.text).onExit _).andThen
  apply Spec.modify
  rintro state ⟨stored, dropped, frees⟩
  exact ⟨stored, dropped, by simp [Moving.free, frees]⟩

/-! ## From a vector or a box -/

theorem Vec.items_setLen_zero {T : Type} (v : Vec T) (fits : 0 ≤ v.buffer.length)
    (initialized : ∀ slot ∈ v.buffer.take 0, slot.isSome = true) :
    (v.setLen 0 fits initialized).items = [] := by
  simp [setLen, items]

theorem fromHeaderAndVec_builds {word : MachineWord} {H T : Type} (site : Site word)
    (header : H) {v : Vec T} {xs : List T} (holds : v.items = numbered xs) :
    Builds (Move.fromHeaderAndVec site header v) (site.Allocates xs.length)
      (.full header xs) (buffers site.elem v.capacity) := by
  have length : v.items.length = xs.length := by simp [holds, numbered]
  have copied : Builds (Make.fromHeaderAndVec site header v.items).lift
      (site.Allocates xs.length) (.full header xs) 0 := by
    rw [← length]
    apply Builds.of_lift
    · intro granted
      refine (Make.fromHeaderAndVec_spec granted).consequence (fun _ initial => initial) ?_
        fun _ _ impossible => impossible
      rintro _ s rfl
      simp [holds, RawBlock.full]
    · intro denied
      exact (Spec.onExit (Make.allocate_refuses denied)).bind
        fun _ _ impossible => impossible.elim
  apply (copied.onExit _).andThen
  apply Spec.modify
  rintro state ⟨stored, dropped, frees⟩
  -- the destructor of the vector finds no element
  have none := Vec.items_setLen_zero v (Nat.zero_le _) (by simp)
  refine ⟨stored, ?_, ?_⟩
  · simp [Moving.dropVec, Moving.dropItems, Moving.free, none, dropped]
  · simp only [Moving.dropVec, Moving.dropItems, Moving.free, frees, Nat.zero_add]
    rfl

theorem fromVec_builds {word : MachineWord} {T : Type} (site : Site word) {v : Vec T}
    {xs : List T} (holds : v.items = numbered xs) :
    Builds (Move.fromVec site v) (site.slice.Allocates xs.length) (.full () xs)
      (buffers site.elem v.capacity) :=
  (fromHeaderAndVec_builds site.slice () holds).andThen
    (Make.lift_keeps (Make.into_keeps site) _)

/-- There is memory for a single value. -/
def Site.AllocatesValue {word : MachineWord} (site : Site word)
    (elemFits : site.elem.shape.size ≤ word.isizeMax) : Prop :=
  ∃ layout, allocateForLayout site.count site.countFits (.new site.elem.shape elemFits)
    (arcInner site.count (.sized site.elem)) = .ok layout ∧ site.memory layout = true

theorem allocateValue_builds {word : MachineWord} {T : Type} (site : Site word)
    (elemFits : site.elem.shape.size ≤ word.isizeMax) :
    Builds (Make.allocateValue site elemFits).lift (site.AllocatesValue elemFits)
      (⟨1, some (), [none]⟩ : RawBlock Unit T) 0 := by
  apply Builds.of_lift
  · rintro ⟨layout, asked, memory⟩ s rfl
    simp [Make.allocateValue, asked, memory, Making.start]
  · rintro denied s rfl
    unfold Make.allocateValue
    cases asked : allocateForLayout site.count site.countFits (.new site.elem.shape elemFits)
        (arcInner site.count (.sized site.elem)) with
    | error panic => exact Or.inr ⟨panic, rfl⟩
    | ok layout =>
        have none : site.memory layout ≠ true := fun memory => denied ⟨layout, asked, memory⟩
        simp only [none]
        exact Or.inl rfl

theorem fromBox_builds {word : MachineWord} {T : Type} (site : Site word)
    (elemFits : site.elem.shape.size ≤ word.isizeMax) (value : T) :
    Builds (Move.fromBox site elemFits ⟨0, value⟩) (site.AllocatesValue elemFits)
      (.full () [value]) (buffers site.elem 1) := by
  have copied : Spec
      (fun s : Making Unit T => s.block = some ⟨1, some (), [none]⟩ ∧ s.dropped = [])
      (Make.copySlots [⟨0, value⟩])
      (fun _ s => s.block = some (.full () [value]) ∧ s.dropped = []) fun _ _ => False := by
    rintro s ⟨stored, kept⟩
    simp [Make.copySlots, stored, kept, RawBlock.full, numbered]
  apply ((allocateValue_builds site elemFits).onExit _).andThen
  apply (Make.lift_keeps copied 0).bind fun _ => Spec.modify ?_
  rintro s ⟨stored, dropped, frees⟩
  exact ⟨stored, dropped, by simp [Moving.dropBox, Moving.free, frees]⟩

/-! ## The values of a slice -/

theorem numbered_calls {T : Type} (xs : List T) :
    (numbered xs).map (fun item => Dropped.item item.call) =
      (List.range xs.length).map .item := by
  apply List.ext_getElem?
  intro i
  by_cases inside : i < xs.length <;> simp [numbered, inside]

/-- The destructor of a new slice drops every value once. -/
theorem glue_nodup {H T : Type} (header : H) (xs : List T) :
    (⟨header, numbered xs⟩ : HeaderSlice H T).glue.Nodup := by
  unfold HeaderSlice.glue
  rw [numbered_calls]
  refine List.nodup_cons.mpr ⟨by simp, ?_⟩
  exact List.nodup_range.map fun _ _ same => by simpa using same

theorem data_full {H T : Type} (header : H) (xs : List T) :
    (RawBlock.full header xs).data = some ⟨header, numbered xs⟩ := by
  have all : ∀ items : List (Item T), (items.map some).mapM id = some items := by
    intro items
    induction items with
    | nil => rfl
    | cons item items ih => simp [ih]
  simp [RawBlock.data, RawBlock.full, all]

/-- The constructors for slices agree, and own every value once.  Whichever source
holds the elements, the block they build has count 1, the header and the elements in
order; nothing is dropped by the construction, and the buffer of the source is
freed.  Whatever happens later, a value is dropped once if the block is disposed of. -/
theorem slice_constructors_own_once {word : MachineWord} {H T : Type} (site : Site word)
    (header : H) (xs : List T) :
    (site.elem.shape.size ≠ 0 →
      (∀ items : Items T, items.Honest xs →
        Builds (Make.fromHeaderAndIter site items header).lift (site.Allocates xs.length)
          (.full header xs) 0) ∧
      Builds (Make.fromHeaderAndSlice site header xs).lift (site.Allocates xs.length)
        (.full header xs) 0 ∧
      Builds (Make.fromSlice site xs).lift (site.slice.Allocates xs.length)
        (.full () xs) 0) ∧
    (∀ v : Vec T, v.items = numbered xs →
      Builds (Move.fromHeaderAndVec site header v) (site.Allocates xs.length)
        (.full header xs) (buffers site.elem v.capacity) ∧
      Builds (Move.fromVec site v) (site.slice.Allocates xs.length) (.full () xs)
        (buffers site.elem v.capacity)) ∧
    (∀ text : String,
      Builds (Make.fromHeaderAndStr site header text).lift
        (site.bytes.Allocates (utf8 text).length) (.full header (utf8 text)) 0 ∧
      Builds (Make.fromStr site text).lift (site.slice.bytes.Allocates (utf8 text).length)
        (.full () (utf8 text)) 0 ∧
      ∀ s : StringBuf, s.text = text →
        Builds (Move.fromString site s) (site.slice.bytes.Allocates (utf8 text).length)
          (.full () (utf8 text)) (buffers site.bytes.elem s.capacity)) ∧
    (∀ (elemFits : site.elem.shape.size ≤ word.isizeMax) (value : T),
      Builds (Move.fromBox site elemFits ⟨0, value⟩) (site.AllocatesValue elemFits)
        (.full () [value]) (buffers site.elem 1)) ∧
    (RawBlock.full header xs).data = some ⟨header, numbered xs⟩ ∧
    ∀ (N : Nat) (S : Type) (machine : MachineWord) (runs : S → Nat) (t : Fin N)
      (strategy : S) (s next last : Sys N (HeaderSlice H T) S)
      (admits : Sys N (HeaderSlice H T) S → Fin N × Act N (HeaderSlice H T) S → Prop)
      (path : List (Moment N (HeaderSlice H T) S)),
      step machine s (t, .new ⟨header, numbered xs⟩ strategy) = .ok next →
      Trail (step machine) admits next path last →
        ∀ value ∈ (⟨header, numbered xs⟩ : HeaderSlice H T).glue,
          Sys.OwnedOnce HeaderSlice.glue runs s.heap.length value path last := by
  refine ⟨fun sized => ⟨?_, ?_, ?_⟩, ?_, ?_, ?_, data_full header xs, ?_⟩
  · exact fun items honest => fromHeaderAndIter_builds header honest sized
  · exact fromHeaderAndSlice_builds header xs sized
  · exact fromSlice_builds xs sized
  · intro v holds
    exact ⟨fromHeaderAndVec_builds site header holds, fromVec_builds site holds⟩
  · intro text
    refine ⟨fromHeaderAndStr_builds site header text, fromStr_builds site text, ?_⟩
    rintro s rfl
    exact fromString_builds site s
  · exact fromBox_builds site
  · intro N S machine runs t strategy s next last admits path created trail value member
    exact Sys.ownedOnce_of_trail (glue_nodup header xs) member created trail

/-- A vector of two elements with room for a third one. -/
def roomyVec : Vec Nat where
  buffer := [some ⟨0, 10⟩, some ⟨1, 11⟩, none]
  len := 2
  fits := Nat.le_succ 2
  initialized := by simp

/-- The vector is moved into a block, whose only handle is then dropped. -/
theorem slice_constructors_own_once_witness :
    (∃ s, Move.fromHeaderAndVec byteSite 5 roomyVec .start = .ok () s ∧
      s.block = some (.full 5 [10, 11]) ∧ s.dropped = [] ∧ s.frees = 1) ∧
    ∃ (path : List (Moment 1 (HeaderSlice Nat Nat) Unit)) (last : Sys 1 (HeaderSlice Nat Nat) Unit),
      last.heap.fateAt 0 = some (.backdropped ()) ∧
        ((dropsMade HeaderSlice.glue (fun _ => 1) 0 path).count (.item 1) : Int) +
          takenOut HeaderSlice.glue 0 (.item 1) path = 1 := by
  obtain ⟨_, vec, _, _, _, later⟩ := slice_constructors_own_once byteSite 5 [10, 11]
  constructor
  · exact (vec roomyVec rfl).1.run ⟨_, rfl, rfl⟩
  · obtain ⟨next, last, created, run, given⟩ :
        ∃ next last : Sys 1 (HeaderSlice Nat Nat) Unit,
          step .wide (.start 1 _ _) (0, .new ⟨5, numbered [10, 11]⟩ ()) = .ok next ∧
          Reaches (step .wide) Sys.Keeps next last ∧
          last.heap.fateAt 0 = some (.backdropped ()) :=
      ⟨_, _, rfl, reaches_of_follow
        [(0, .drop 0), (0, .advance), (0, .advance), (0, .advance)] rfl, rfl⟩
    obtain ⟨path, trail⟩ := Trail.of_reaches run
    have owned := later 1 Unit .wide (fun _ => 1) 0 () _ next last _ path created trail
      (.item 1) (by decide)
    exact ⟨path, last, given, owned.once () given rfl⟩

end BackdropArc
