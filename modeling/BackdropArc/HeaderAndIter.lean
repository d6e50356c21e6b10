import BackdropArc.ArcLayout
import BackdropArc.UnwindingCode

/-!
# Slices built from an iterator

`from_header_and_iter` writes what an iterator returns into a block that is not
initialized yet.  The iterator is code of the user: it may report any length,
return anything from any call, and unwind.  The model keeps the block, the number
of calls of `next`, and everything that was dropped.
-/

namespace BackdropArc

open UnwindingCode

inductive Reply (T : Type)
  | some (item : T)
  | none
  | unwind
  deriving DecidableEq, Repr

/-- An `ExactSizeIterator`: what `len` returns, unless it unwinds, and what each
call of `next` does. -/
structure Items (T : Type) where
  len : Option Nat
  next : Nat → Reply T

/-- An item obtained from the iterator, with the number of its call. -/
structure Item (T : Type) where
  call : Nat
  value : T
  deriving DecidableEq, Repr

inductive Dropped
  | header
  | item (call : Nat)
  deriving DecidableEq, Repr

/-- Why the construction does not return. -/
inductive Exit
  | panicked (message : String)
  | layout (panic : AllocPanic)
  /-- The iterator unwinds. -/
  | iterator
  /-- `handle_alloc_error`. -/
  | aborted
  /-- The call needs more steps than it was given. -/
  | running
  | writesOutside
  | writesTwice
  deriving DecidableEq, Repr

/-- What no iterator may bring about. -/
def Exit.Faulty (exit : Exit) : Prop :=
  exit = .writesOutside ∨ exit = .writesTwice

/-- An `ArcInner<HeaderSlice<H, [T]>>` of which parts may be uninitialized. -/
structure RawBlock (H T : Type) where
  count : Nat
  header : Option H
  slots : List (Option (Item T))
  deriving DecidableEq, Repr

structure Making (H T : Type) where
  calls : Nat
  block : Option (RawBlock H T)
  dropped : List Dropped
  deriving DecidableEq, Repr

namespace Making

variable {H T : Type}

def start : Making H T :=
  ⟨0, none, []⟩

def drop (value : Dropped) (s : Making H T) : Making H T :=
  { s with dropped := s.dropped ++ [value] }

end Making

abbrev Make (H T : Type) :=
  EStateM Exit (Making H T)

/-- The layouts that the construction computes with, and the layouts for which
the allocator has memory. -/
structure Site (word : MachineWord) where
  count : RecordLayout.Shape word
  countFits : count.size ≤ word.isizeMax
  header : ElemType word
  headerFits : header.shape.size ≤ word.isizeMax
  elem : ElemType word
  memory : RecordLayout.Layout word → Bool

namespace Make

variable {word : MachineWord} {H T : Type} (site : Site word) (items : Items T)

def assert (condition : Prop) [Decidable condition] (message : String) : Make H T Unit :=
  if condition then pure () else throw (.panicked message)

def len : Make H T Nat :=
  match items.len with
  | some numItems => pure numItems
  | none => throw .iterator

def next : Make H T (Option (Item T)) := fun s =>
  match items.next s.calls with
  | .some value => .ok (some ⟨s.calls, value⟩) { s with calls := s.calls + 1 }
  | .none => .ok none { s with calls := s.calls + 1 }
  | .unwind => .error .iterator { s with calls := s.calls + 1 }

/-- `allocate_for_header_and_slice`, which writes the count. -/
def allocate (numItems : Nat) : Make H T Unit := fun s =>
  match allocateForHeaderAndSlice site.count site.countFits site.header site.elem
      site.headerFits numItems with
  | .error panic => .error (.layout panic) s
  | .ok layout =>
      if site.memory layout then
        .ok () { s with block := some ⟨1, none, List.replicate numItems none⟩ }
      else .error .aborted s

/-- `ptr::write` to the header. -/
def writeHeader (header : H) : Make H T Unit := fun s =>
  match s.block with
  | some block => .ok () { s with block := some { block with header := some header } }
  | none => .error .writesOutside s

/-- `ptr::write` to a slot. -/
def writeSlot (current : Nat) (item : Item T) : Make H T Unit := fun s =>
  match s.block with
  | some block =>
      match block.slots[current]? with
      | some none =>
          .ok () { s with block := some { block with
            slots := block.slots.set current (some item) } }
      | some (some _) => .error .writesTwice s
      | none => .error .writesOutside s
  | none => .error .writesOutside s

/-- `assert!(items.next().is_none(), ..)`: the item is dropped after the test. -/
def assertExhausted : Make H T Unit := do
  match ← next items with
  | none => pure ()
  | some item =>
      modify (Making.drop (.item item.call))
      throw (.panicked "ExactSizeIterator under-reported length")

/-- The body of the loop, which returns the new `current`. -/
def writeNext (current : Nat) : Make H T Nat := do
  match ← next items with
  | some item =>
      writeSlot current item
      pure (current + 1)
  | none => throw (.panicked "ExactSizeIterator over-reported length")

/-- `from_header_and_iter` before the write of the header. -/
def prepare : Make H T Nat := do
  assert (site.elem.shape.size ≠ 0) "Need to think about ZST"
  let numItems ← len items
  allocate site numItems
  pure numItems

/-- A panic drops the header as long as it is in a variable. -/
def dropHeader (exit : Exit) (s : Making H T) : Making H T :=
  if exit = .aborted then s else s.drop .header

/-- `from_header_and_iter`, up to the pointer to the block. -/
def fromHeaderAndIter (header : H) : Make H T Unit := do
  let numItems ← onExit dropHeader (prepare site items)
  writeHeader header
  if numItems ≠ 0 then
    let _ ← iterate (writeNext items) numItems 0
    assertExhausted items
  assertExhausted items

end Make

/-! ## What the iterator did -/

def Items.item? {T : Type} (items : Items T) (call : Nat) : Option (Item T) :=
  match items.next call with
  | .some value => some ⟨call, value⟩
  | .none | .unwind => none

/-- The first calls answered like an iterator over `n` items. -/
def Items.Behaved {T : Type} (items : Items T) (n calls : Nat) : Prop :=
  ∀ call < calls,
    if call < n then ∃ value, items.next call = .some value else items.next call = .none

/-- `n` slots, of which the first are written. -/
def Items.written {T : Type} (items : Items T) (n done : Nat) : List (Option (Item T)) :=
  (List.range n).map fun slot => if slot < done then items.item? slot else none

namespace Items

variable {T : Type} {items : Items T} {n done : Nat}

theorem item?_eq {call : Nat} {value : T} (reply : items.next call = .some value) :
    items.item? call = some ⟨call, value⟩ := by
  simp [item?, reply]

theorem behaved_zero : items.Behaved n 0 := by
  intro call impossible
  omega

theorem Behaved.succ (behaved : items.Behaved n done)
    (reply : if done < n then ∃ value, items.next done = .some value
      else items.next done = .none) : items.Behaved n (done + 1) := by
  intro call before
  by_cases last : call = done
  · rwa [last]
  · exact behaved call (by omega)

theorem written_zero : items.written n 0 = List.replicate n none := by
  simp [written, List.map_const']

theorem written_getElem? (inside : done < n) : (items.written n done)[done]? = some none := by
  simp [written, inside]

theorem written_succ {value : T}
    (reply : items.next done = .some value) :
    (items.written n done).set done (some ⟨done, value⟩) = items.written n (done + 1) := by
  apply List.ext_getElem
  · simp [written]
  · intro slot _ _
    rw [List.getElem_set]
    split
    · next here =>
        subst here
        simp [written, item?_eq reply]
    · next elsewhere =>
        simp only [written, List.getElem_map, List.getElem_range]
        have same : slot < done ↔ slot < done + 1 := by omega
        simp only [same]

end Items

/-! ## What the construction does -/

section Outcome

variable {word : MachineWord} {H T : Type}

def Site.Allocates (site : Site word) (n : Nat) : Prop :=
  ∃ layout, allocateForHeaderAndSlice site.count site.countFits site.header site.elem
    site.headerFits n = .ok layout ∧ site.memory layout = true

/-- The calls of `next` that a construction makes if it returns. -/
def callsMade (n : Nat) : Nat :=
  if n = 0 then 1 else n + 2

/-- The exits before the header is written. -/
inductive Refused (site : Site word) (items : Items T) : Exit → Prop
  | sizeZero : site.elem.shape.size = 0 → Refused site items (.panicked "Need to think about ZST")
  | len : items.len = none → Refused site items .iterator
  | layout (n : Nat) (panic : AllocPanic) : items.len = some n → ¬ site.Allocates n →
      Refused site items (.layout panic)
  | memory (n : Nat) : items.len = some n → ¬ site.Allocates n →
      Refused site items .aborted

/-- The state after an exit. -/
inductive Fails (site : Site word) (items : Items T) : Exit → Making H T → Prop
  | refused (exit : Exit) : Refused site items exit →
      Fails site items exit (Make.dropHeader exit .start)
  | overReported (n : Nat) (s : Making H T) (call : Nat) : items.len = some n →
      items.Behaved n call → call < n → items.next call = .none →
        s.calls = call + 1 → s.dropped = [] →
          Fails site items (.panicked "ExactSizeIterator over-reported length") s
  | underReported (n : Nat) (s : Making H T) (call : Nat) (value : T) :
      items.len = some n → items.Behaved n call → n ≤ call → call < callsMade n →
        items.next call = .some value → s.calls = call + 1 →
          s.dropped = [.item call] →
            Fails site items (.panicked "ExactSizeIterator under-reported length") s
  | iterator (n : Nat) (s : Making H T) (call : Nat) : items.len = some n →
      items.Behaved n call → call < callsMade n → items.next call = .unwind →
        s.calls = call + 1 → s.dropped = [] → Fails site items .iterator s

/-- The state between two calls of `next`. -/
structure Writing (items : Items T) (header : H) (n done calls : Nat)
    (s : Making H T) : Prop where
  len : items.len = some n
  calls_eq : s.calls = calls
  behaved : items.Behaved n calls
  block : s.block = some ⟨1, some header, items.written n done⟩
  dropped : s.dropped = []

namespace Make

variable {site : Site word} {items : Items T} {header : H} {n : Nat}

theorem assert_spec {condition : Prop} [Decidable condition] {message : String}
    {before : Making H T → Prop} {exits : Exit → Making H T → Prop}
    (fails : ∀ s, before s → ¬ condition → exits (.panicked message) s) :
    Spec before (assert condition message) (fun _ s => condition ∧ before s) exits := by
  unfold assert
  split
  · next kept => exact .pure fun s holds => ⟨kept, holds⟩
  · next failed => exact .throw fun s holds => fails s holds failed

theorem len_spec {before : Making H T → Prop} {exits : Exit → Making H T → Prop}
    (fails : ∀ s, before s → items.len = none → exits .iterator s) :
    Spec before (len items) (fun n s => items.len = some n ∧ before s) exits := by
  unfold len
  cases reported : items.len with
  | some n => exact .pure fun s holds => ⟨rfl, holds⟩
  | none => exact .throw fun s holds => fails s holds reported

theorem allocate_spec {before : Making H T → Prop} :
    Spec before (allocate site n)
      (fun _ s => site.Allocates n ∧ ∃ old, before old ∧
        s = { old with block := some ⟨1, none, List.replicate n none⟩ })
      (fun exit s => before s ∧ ¬ site.Allocates n ∧
        ((∃ panic, exit = .layout panic) ∨ exit = .aborted)) := by
  intro s holds
  unfold allocate
  cases asked : allocateForHeaderAndSlice site.count site.countFits site.header site.elem
      site.headerFits n with
  | error panic =>
      have refused : ¬ site.Allocates n := by
        rintro ⟨layout, granted, _⟩
        simp [asked] at granted
      exact ⟨holds, refused, Or.inl ⟨panic, rfl⟩⟩
  | ok layout =>
      by_cases memory : site.memory layout = true
      · simp only [memory, if_true]
        exact ⟨⟨layout, asked, memory⟩, s, holds, rfl⟩
      · have refused : ¬ site.Allocates n := by
          rintro ⟨other, granted, available⟩
          obtain rfl := Except.ok.inj (asked.symm.trans granted)
          exact memory available
        simp only [memory]
        exact ⟨holds, refused, Or.inr rfl⟩

theorem prepare_spec :
    Spec (· = (Making.start : Making H T)) (prepare site items)
      (fun n s => site.elem.shape.size ≠ 0 ∧ site.Allocates n ∧ items.len = some n ∧
        s = ⟨0, some ⟨1, none, List.replicate n none⟩, []⟩)
      (fun exit s => Refused site items exit ∧ s = .start) := by
  refine (assert_spec fun s initial size => ?_).bind fun _ =>
    (len_spec fun s initial reported => ?_).bind fun n =>
      (allocate_spec.consequence (fun _ holds => holds) (fun _ _ holds => holds)
        fun exit s failed => ?_).bind fun _ => .pure fun s made => ?_
  · exact ⟨.sizeZero (by simpa using size), initial⟩
  · exact ⟨.len reported, initial.2⟩
  · obtain ⟨⟨reported, _, initial⟩, refused, reason⟩ := failed
    refine ⟨?_, initial⟩
    rcases reason with ⟨panic, rfl⟩ | rfl
    · exact .layout n panic reported refused
    · exact .memory n reported refused
  · obtain ⟨allocates, old, ⟨reported, size, rfl⟩, rfl⟩ := made
    exact ⟨size, allocates, reported, rfl⟩

theorem writeHeader_spec :
    Spec (fun s : Making H T => items.len = some n ∧
        s = ⟨0, some ⟨1, none, List.replicate n none⟩, []⟩) (writeHeader header)
      (fun _ => Writing items header n 0 0) (Fails site items) := by
  rintro s ⟨len, rfl⟩
  exact ⟨len, rfl, Items.behaved_zero, by rw [Items.written_zero], rfl⟩

theorem le_callsMade (n : Nat) : n ≤ callsMade n := by
  unfold callsMade
  split <;> omega

/-- One round of the loop writes the next slot. -/
theorem writeNext_spec {done : Nat} (current : Nat) (inside : done < n) :
    Spec (fun s => current = done ∧ Writing items header n done done s)
      (writeNext items current)
      (fun after s => after = done + 1 ∧ Writing items header n (done + 1) (done + 1) s)
      (Fails site items) := by
  rintro s ⟨rfl, writing⟩
  have block := writing.block
  have reply : items.next s.calls = items.next current := by rw [writing.calls_eq]
  simp only [writeNext, next, bind, EStateM.bind, reply]
  cases replied : items.next current with
  | some value =>
      have behaved := writing.behaved.succ (by rw [if_pos inside]; exact ⟨value, replied⟩)
      have written := Items.written_succ (n := n) replied
      simp only [EStateM.bind, writeSlot, block, Items.written_getElem? inside,
        writing.calls_eq, written, pure, EStateM.pure]
      exact ⟨trivial, writing.len, rfl, behaved, rfl, writing.dropped⟩
  | none =>
      exact .overReported n _ current writing.len writing.behaved inside replied
        (by simp only [writing.calls_eq]) writing.dropped
  | unwind =>
      have needed : current < callsMade n := inside.trans_le (le_callsMade n)
      exact .iterator n _ current writing.len writing.behaved needed replied
        (by simp only [writing.calls_eq]) writing.dropped

/-- The test of an exhausted iterator makes one more call. -/
theorem assertExhausted_spec {calls : Nat} (all : n ≤ calls)
    (needed : calls < callsMade n) :
    Spec (Writing items header n n calls) (assertExhausted items)
      (fun _ => Writing items header n n (calls + 1)) (Fails site items) := by
  intro s writing
  have reply : items.next s.calls = items.next calls := by rw [writing.calls_eq]
  simp only [assertExhausted, next, bind, EStateM.bind, reply]
  cases replied : items.next calls with
  | some value =>
      refine .underReported n _ calls value writing.len writing.behaved all needed replied
        ?_ ?_
      · simp only [Making.drop, writing.calls_eq]
      · simp only [Making.drop, writing.calls_eq, writing.dropped, List.nil_append]
  | none =>
      have behaved := writing.behaved.succ (by rwa [if_neg (Nat.not_lt_of_le all)])
      exact ⟨writing.len, by simp only [writing.calls_eq], behaved, writing.block,
        writing.dropped⟩
  | unwind =>
      exact .iterator n _ calls writing.len writing.behaved needed replied
        (by simp only [writing.calls_eq]) writing.dropped

theorem fromHeaderAndIter_spec :
    Spec (· = Making.start) (fromHeaderAndIter site items header)
      (fun _ s => site.elem.shape.size ≠ 0 ∧ ∃ n, site.Allocates n ∧
        Writing items header n n (callsMade n) s)
      (Fails site items) := by
  have prepared : Spec (· = (Making.start : Making H T))
      (onExit dropHeader (prepare site items)) _ (Fails site items) :=
    .onExit (prepare_spec.consequence (fun _ initial => initial) (fun _ _ made => made)
      fun exit s refused => by
        obtain ⟨reason, rfl⟩ := refused
        exact .refused exit reason)
  refine prepared.bind fun n => .assuming fun size => .assuming fun allocates => ?_
  have finished (s : Making H T) (writing : Writing items header n n (callsMade n) s) :
      site.elem.shape.size ≠ 0 ∧ ∃ n, site.Allocates n ∧
        Writing items header n n (callsMade n) s :=
    ⟨size, n, allocates, writing⟩
  by_cases empty : n = 0
  · subst empty
    exact writeHeader_spec.bind fun _ =>
      (assertExhausted_spec le_rfl Nat.one_pos).consequence (fun _ writing => writing)
        (fun _ s writing => finished s writing) fun _ _ failed => failed
  · -- the loop has run `done` times, and `current` is the slot of that number
    have loop : Spec (Writing items header n 0 0) (iterate (writeNext items) n 0)
        (fun _ => Writing items header n n n) (Fails site items) :=
      (Spec.iterate 0 fun done current inside => writeNext_spec current inside).consequence
        (fun _ writing => ⟨rfl, writing⟩) (fun _ _ written => written.2)
        fun _ _ failed => failed
    have needed : callsMade n = n + 2 := if_neg empty
    simp only [ne_eq, empty, not_false_eq_true, if_true]
    refine writeHeader_spec.bind fun _ => loop.bind fun _ =>
      (assertExhausted_spec le_rfl (by omega)).bind fun _ =>
        (assertExhausted_spec (Nat.le_succ n) (by omega)).consequence
          (fun _ writing => writing) (fun _ s writing => finished s ?_)
          fun _ _ failed => failed
    rwa [needed]

end Make

end Outcome

end BackdropArc
