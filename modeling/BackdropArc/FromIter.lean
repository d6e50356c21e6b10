import BackdropArc.IteratorSafety

/-!
# Slices collected from an iterator

`from_iter` asks the iterator for its size hint.  If the hint is exact, it writes
the items in place; otherwise it collects them into a vector and copies that.
Both build the same slice, wherever the first of them is meant to work.
-/

namespace BackdropArc

open UnwindingCode

/-- An `Iterator`: the answer of `size_hint` before the first call of `next`, and
what each call does. -/
structure Iter (T : Type) where
  sizeHint : Nat × Option Nat
  next : Nat → Reply T

/-- The length that `IteratorAsExactSizeIterator` reports. -/
def Iter.items {T : Type} (iter : Iter T) : Items T :=
  ⟨some iter.sizeHint.1, iter.next⟩

/-- The layouts of `HeaderSlice<(), [T]>`. -/
def Site.slice {word : MachineWord} (site : Site word) : Site word :=
  { site with header := .unit, headerFits := Nat.zero_le _ }

namespace Make

variable {word : MachineWord} {H T : Type} (site : Site word) (iter : Iter T)

def dropVec (vec : List (Item T)) (exit : Exit) (s : Making H T) : Making H T :=
  if exit = .aborted then s
  else { s with dropped := s.dropped ++ vec.map fun item => .item item.call }

/-- `Iterator::collect::<Vec<_>>`, with a bound on the number of calls. -/
def collect : Nat → List (Item T) → Make H T (List (Item T))
  | 0, _ => throw .running
  | fuel + 1, vec => do
      match ← onExit (dropVec vec) (next iter.items) with
      | some item => collect fuel (vec ++ [item])
      | none => pure vec

/-- `ptr::copy_nonoverlapping` to the first slots. -/
def copySlots (vec : List (Item T)) : Make H T Unit := fun s =>
  match s.block with
  | some block =>
      if vec.length ≤ block.slots.length then
        .ok () { s with block := some { block with
          slots := vec.map some ++ block.slots.drop vec.length } }
      else .error .writesOutside s
  | none => .error .writesOutside s

/-- `from_header_and_vec`, up to the pointer to the block. -/
def fromHeaderAndVec (header : H) (v : List (Item T)) : Make H T Unit := do
  onExit (fun exit s => dropHeader exit (dropVec v exit s)) (allocate site v.length)
  writeHeader header
  copySlots v

/-- `IteratorAsExactSizeIterator::new` and its `len`. -/
def asExactSizeIterator : Make H T (Items T) := do
  assert (some iter.sizeHint.1 = iter.sizeHint.2)
    "IteratorAsExactSizeIterator requires size hint lower == upper"
  pure iter.items

def assertBlock (test : RawBlock H T → Bool) : Make H T Unit := fun s =>
  if s.block.any test then .ok () s
  else .error (.panicked "assertion `left == right` failed") s

/-- `From<Arc<HeaderSlice<(), T>>> for Arc<T>`, which casts the pointer. -/
def into : Make H T Unit :=
  assertBlock fun block =>
    let data : DataType word := .slice site.elem block.slots.length
    (DataType.headerSlice .unit data).shape.size = data.shape.size ∧
      (DataType.headerSlice .unit data).shape.align = data.shape.align

def fromArc : Make H T Unit :=
  assertBlock fun block => block.count = 1

/-- `FromIterator for UniqueArc`. -/
def uniqueFromIter (fuel : Nat) : Make Unit T Unit := do
  if some iter.sizeHint.1 = iter.sizeHint.2 then
    let items ← asExactSizeIterator iter
    fromHeaderAndIter site.slice items ()
  else
    let vec ← collect iter fuel []
    fromHeaderAndVec site.slice () vec
  into site
  fromArc

/-- `FromIterator for Arc`: `shareable` hands out the `Arc` inside. -/
def arcFromIter (fuel : Nat) : Make Unit T Unit :=
  uniqueFromIter site iter fuel

end Make

/-! ## Finite iterators -/

namespace Iter

variable {T : Type} (iter : Iter T)

/-- The iterator yields `m` items before its first `None`. -/
def Yields (m : Nat) : Prop :=
  (∀ call < m, ∃ value, iter.next call = .some value) ∧ iter.next m = .none

/-- The size hint bounds the number of items. -/
def Truthful (m : Nat) : Prop :=
  iter.sizeHint.1 ≤ m ∧ ∀ upper, iter.sizeHint.2 = some upper → m ≤ upper

def Exact : Prop :=
  some iter.sizeHint.1 = iter.sizeHint.2

instance : Decidable iter.Exact :=
  inferInstanceAs (Decidable (_ = _))

def taken (calls : Nat) : List (Item T) :=
  (List.range calls).filterMap iter.items.item?

/-- A block with count 1 whose slice are the items of the first calls. -/
def block (m : Nat) : RawBlock Unit T :=
  ⟨1, some (), (iter.taken m).map some⟩

variable {iter} {m : Nat}

theorem taken_succ {calls : Nat} {value : T} (reply : iter.next calls = .some value) :
    iter.taken (calls + 1) = iter.taken calls ++ [⟨calls, value⟩] := by
  have item : iter.items.item? calls = some ⟨calls, value⟩ := Items.item?_eq reply
  simp [taken, List.range_succ, item]

/-- The items are those that the first calls returned, in order. -/
theorem Yields.getElem?_taken (yields : iter.Yields m) {calls : Nat} (most : calls ≤ m) :
    (iter.taken calls).length = calls ∧ ∀ i < calls, ∃ value,
      iter.next i = .some value ∧ (iter.taken calls)[i]? = some ⟨i, value⟩ := by
  induction calls with
  | zero => simp [taken]
  | succ calls ih =>
      obtain ⟨length, earlier⟩ := ih (by omega)
      obtain ⟨value, reply⟩ := yields.1 calls (by omega)
      rw [taken_succ reply]
      refine ⟨by simp [length], fun i inside => ?_⟩
      by_cases last : i = calls
      · refine ⟨value, by rw [last, reply], ?_⟩
        rw [List.getElem?_append_right (by omega), last, length]
        simp
      · obtain ⟨other, otherReply, found⟩ := earlier i (by omega)
        refine ⟨other, otherReply, ?_⟩
        rwa [List.getElem?_append_left (by omega)]

theorem Yields.complete (yields : iter.Yields m) :
    Complete iter.items () m (iter.block m) := by
  obtain ⟨length, items⟩ := yields.getElem?_taken le_rfl
  refine ⟨rfl, rfl, by simp [block, length], fun i inside => ?_⟩
  obtain ⟨value, reply, found⟩ := items i inside
  exact ⟨value, reply, by simp [block, found]⟩

theorem Yields.eq_of_complete (yields : iter.Yields m) {block : RawBlock Unit T}
    (complete : Complete iter.items () m block) : block = iter.block m := by
  obtain ⟨count, header, slots⟩ := block
  have same : slots = (iter.block m).slots := by
    apply List.ext_getElem?
    intro i
    by_cases inside : i < m
    · obtain ⟨value, reply, found⟩ := complete.slots i inside
      obtain ⟨other, otherReply, otherFound⟩ := yields.complete.slots i inside
      have sameValue : value = other := by
        simpa using reply.symm.trans otherReply
      rw [otherFound, ← sameValue]
      exact found
    · have length : slots.length = m := complete.length
      have otherLength := yields.complete.length
      rw [List.getElem?_eq_none (by omega), List.getElem?_eq_none (by omega)]
  rw [same, show count = 1 from complete.count, show header = some () from complete.header]
  rfl

end Iter

/-! ## Both paths -/

namespace Make

variable {word : MachineWord} {H T : Type} {site : Site word} {iter : Iter T} {m : Nat}

/-- A specification without exits. -/
abbrev Returns {Value : Type} (before : Making H T → Prop) (code : Make H T Value)
    (returns : Value → Making H T → Prop) : Prop :=
  Spec before code returns fun _ _ => False

theorem collect_spec (yields : iter.Yields m) (fuel done : Nat) (most : done ≤ m)
    (enough : m < done + fuel) :
    Returns (· = (⟨done, none, []⟩ : Making H T)) (collect iter fuel (iter.taken done))
      fun vec s => vec = iter.taken m ∧ s = ⟨m + 1, none, []⟩ := by
  induction fuel generalizing done with
  | zero => omega
  | succ fuel ih =>
      rintro s rfl
      by_cases last : done = m
      · subst last
        have ended : iter.items.next done = .none := yields.2
        simp only [collect, bind, EStateM.bind, onExit, next, ended, pure, EStateM.pure]
        exact ⟨trivial, trivial⟩
      · obtain ⟨value, reply⟩ := yields.1 done (by omega)
        have answered : iter.items.next done = .some value := reply
        have rest := ih (done + 1) (by omega) (by omega) _ rfl
        rw [Iter.taken_succ reply] at rest
        simpa only [collect, bind, EStateM.bind, onExit, next, answered] using rest

theorem fromHeaderAndVec_spec {header : H} {vec : List (Item T)} {calls : Nat}
    (allocates : site.Allocates vec.length) :
    Returns (· = (⟨calls, none, []⟩ : Making H T)) (fromHeaderAndVec site header vec)
      fun _ s => s = ⟨calls, some ⟨1, some header, vec.map some⟩, []⟩ := by
  rintro s rfl
  obtain ⟨layout, asked, memory⟩ := allocates
  have length : vec.length ≤ (List.replicate vec.length (none : Option (Item T))).length := by
    simp
  simp only [fromHeaderAndVec, bind, EStateM.bind, onExit, allocate, asked, memory,
    if_true, writeHeader, copySlots, if_pos length]
  simp

theorem exact_of_yields (yields : iter.Yields m)
    (exhausted : m = 0 ∨ iter.next (m + 1) = .none) : iter.items.Exact m := by
  intro call made
  split
  · next inside => exact yields.1 call inside
  · next outside =>
      unfold callsMade at made
      split at made
      · obtain rfl : call = m := by omega
        exact yields.2
      · next nonempty =>
          rcases Nat.lt_or_ge m call with after | before
          · obtain rfl : call = m + 1 := by omega
            exact exhausted.resolve_left nonempty
          · obtain rfl : call = m := by omega
            exact yields.2

theorem fromHeaderAndIter_returns {items : Items T} {header : H}
    (sized : site.elem.shape.size ≠ 0) (len : items.len = some m)
    (allocates : site.Allocates m) (promised : items.Exact m) :
    Returns (· = .start) (fromHeaderAndIter site items header) fun _ s =>
      ∃ block, s.block = some block ∧ Complete items header m block :=
  fromHeaderAndIter_spec.consequence (fun _ initial => initial)
    (fun _ s made => by
      obtain ⟨_, n, _, writing⟩ := made
      obtain rfl : n = m := Option.some.inj (writing.len.symm.trans len)
      exact writing.complete (le_callsMade n))
    fun _ _ fails => fails.not_exact sized len allocates promised

theorem assertBlock_spec {test : RawBlock H T → Bool} {block : RawBlock H T}
    (passes : test block = true) :
    Returns (·.block = some block) (assertBlock test) fun _ s => s.block = some block := by
  intro s stored
  simp only [assertBlock, stored, Option.any_some, passes, if_true]

theorem finish_spec {block : RawBlock H T} (count : block.count = 1) :
    Returns (·.block = some block) (into site >>= fun _ => fromArc)
      fun _ s => s.block = some block := by
  refine (assertBlock_spec ?_).bind fun _ => assertBlock_spec (by simpa using count)
  simp [DataType.shape, ElemType.shape]

/-- The construction in place, for an exact size hint. -/
theorem uniqueFromIter_exact (yields : iter.Yields m) (truthful : iter.Truthful m)
    (exactHint : iter.Exact) (sized : site.elem.shape.size ≠ 0)
    (allocates : site.slice.Allocates m)
    (exhausted : m = 0 ∨ iter.next (m + 1) = .none) (fuel : Nat) :
    Returns (· = .start) (uniqueFromIter site iter fuel)
      fun _ s => s.block = some (iter.block m) := by
  have equal : some iter.sizeHint.1 = iter.sizeHint.2 := exactHint
  have length : iter.items.len = some m :=
    congrArg some (Nat.le_antisymm truthful.1 (truthful.2 _ equal.symm))
  have sliceSized : site.slice.elem.shape.size ≠ 0 := sized
  have wrapped : Returns (· = (.start : Making Unit T)) (asExactSizeIterator iter)
      fun items s => items = iter.items ∧ s = .start := by
    unfold asExactSizeIterator
    exact (assert_spec fun _ _ unequal => unequal equal).bind fun _ =>
      .pure fun _ kept => ⟨rfl, kept.2⟩
  have built : Returns (· = .start) (fromHeaderAndIter site.slice iter.items ())
      fun _ s => s.block = some (iter.block m) :=
    (fromHeaderAndIter_returns sliceSized length allocates
      (exact_of_yields yields exhausted)).consequence (fun _ initial => initial)
      (fun _ s made => by
        obtain ⟨block, stored, complete⟩ := made
        rw [stored, yields.eq_of_complete complete])
      fun _ _ impossible => impossible
  unfold uniqueFromIter
  rw [if_pos equal]
  refine wrapped.bind fun items => .assuming ?_
  rintro rfl
  exact built.bind fun _ => finish_spec rfl

/-- The collection into a vector, for an inexact size hint. -/
theorem uniqueFromIter_inexact (yields : iter.Yields m) (inexact : ¬ iter.Exact)
    (allocates : site.slice.Allocates m) {fuel : Nat} (enough : m < fuel) :
    Returns (· = .start) (uniqueFromIter site iter fuel)
      fun _ s => s.block = some (iter.block m) := by
  have taken := (yields.getElem?_taken le_rfl).1
  have collected : Returns (· = (.start : Making Unit T)) (collect iter fuel []) _ :=
    collect_spec yields fuel 0 (Nat.zero_le m) (by omega)
  have unequal : ¬ some iter.sizeHint.1 = iter.sizeHint.2 := inexact
  unfold uniqueFromIter
  rw [if_neg unequal]
  refine collected.bind fun vec => .assuming ?_
  rintro rfl
  have copied : Returns (· = (⟨m + 1, none, []⟩ : Making Unit T))
      (fromHeaderAndVec site.slice () (iter.taken m))
      fun _ s => s.block = some (iter.block m) :=
    (fromHeaderAndVec_spec (by rwa [taken])).consequence (fun _ initial => initial)
      (fun _ s made => by rw [made]; rfl) fun _ _ impossible => impossible
  exact copied.bind fun _ => finish_spec rfl

theorem uniqueFromIter_sizeZero (exactHint : iter.Exact)
    (size : site.elem.shape.size = 0) (fuel : Nat) :
    ∃ s, uniqueFromIter site iter fuel .start =
      .error (.panicked "Need to think about ZST") s := by
  have equal : some iter.sizeHint.1 = iter.sizeHint.2 := exactHint
  have guarded : site.slice.elem.shape.size = 0 := size
  have refused : fromHeaderAndIter site.slice iter.items () (.start : Making Unit T) =
      .error (.panicked "Need to think about ZST") (.drop .header .start) := by
    unfold fromHeaderAndIter prepare assert
    rw [if_neg (not_not_intro guarded)]
    rfl
  refine ⟨.drop .header .start, ?_⟩
  unfold uniqueFromIter
  rw [if_pos equal]
  simp [asExactSizeIterator, assert, equal, bind, EStateM.bind, pure, EStateM.pure, refused]

end Make

theorem Make.Returns.run {H T Value : Type} {before : Making H T → Prop}
    {code : Make H T Value} {returns : Value → Making H T → Prop}
    (spec : Make.Returns before code returns) {s : Making H T} (initial : before s) :
    ∃ value after, code s = .ok value after ∧ returns value after := by
  have result := spec s initial
  cases ran : code s with
  | ok value after =>
      rw [ran] at result
      exact ⟨value, after, rfl, result⟩
  | error exit after =>
      rw [ran] at result
      exact result.elim

/-- The hints for which `from_iter` is meant to work: an inexact one, or an exact
one for elements with a size and an iterator that stays exhausted. -/
def Iter.Supported {word : MachineWord} {T : Type} (iter : Iter T) (site : Site word)
    (m : Nat) : Prop :=
  ¬ iter.Exact ∨
    site.elem.shape.size ≠ 0 ∧ (m = 0 ∨ iter.next (m + 1) = .none)

/-- For the items of one iterator, `from_iter` builds the same slice under every
supported hint: the items before the first `None`, in order, with count 1.  An
exact hint for elements without size makes it panic. -/
theorem from_iter_ignores_hint {word : MachineWord} {T : Type} (site : Site word)
    (items : Iter T) (m : Nat) (yields : items.Yields m)
    (allocates : site.slice.Allocates m) :
    ∃ block, Complete items.items () m block ∧
      ∀ iter : Iter T, iter.next = items.next → iter.Truthful m →
        (iter.Supported site m → ∃ enough, ∀ fuel, enough ≤ fuel →
          (∃ s, Make.uniqueFromIter site iter fuel .start = .ok () s ∧
            s.block = some block) ∧
          ∃ s, Make.arcFromIter site iter fuel .start = .ok () s ∧
            s.block = some block) ∧
        (iter.Exact → site.elem.shape.size = 0 → ∀ fuel,
          (∃ s, Make.uniqueFromIter site iter fuel .start =
            .error (.panicked "Need to think about ZST") s) ∧
          ∃ s, Make.arcFromIter site iter fuel .start =
            .error (.panicked "Need to think about ZST") s) := by
  refine ⟨items.block m, yields.complete, fun iter same truthful => ⟨fun supported => ?_,
    fun exactHint size fuel => ?_⟩⟩
  · have sameYields : iter.Yields m := by
      unfold Iter.Yields at yields ⊢
      rwa [same]
    have sameItem : iter.items.item? = items.items.item? := by
      funext call
      simp only [Items.item?, Iter.items, same]
    have sameBlock : iter.block m = items.block m := by
      simp only [Iter.block, Iter.taken, sameItem]
    refine ⟨m + 1, fun fuel enough => ?_⟩
    have built : Make.Returns (· = .start) (Make.uniqueFromIter site iter fuel)
        fun _ s => s.block = some (iter.block m) := by
      by_cases exactHint : iter.Exact
      · obtain ⟨sized, exhausted⟩ := supported.resolve_left (not_not_intro exactHint)
        exact Make.uniqueFromIter_exact sameYields truthful exactHint sized allocates
          exhausted fuel
      · exact Make.uniqueFromIter_inexact sameYields exactHint allocates enough
    rw [sameBlock] at built
    obtain ⟨_, s, ran, stored⟩ := built.run rfl
    exact ⟨⟨s, ran, stored⟩, s, ran, stored⟩
  · obtain ⟨s, ran⟩ := Make.uniqueFromIter_sizeZero exactHint size fuel
    exact ⟨⟨s, ran⟩, s, ran⟩

def oneUnit : Iter Unit :=
  ⟨(1, some 1), fun call => if call = 0 then .some () else .none⟩

/-- Elements without size on a 64-bit machine, with memory for everything. -/
def unitSite : Site .wide :=
  { byteSite with elem := .unit }

/-- A truthful exact hint makes `from_iter` panic on elements without size. -/
theorem from_iter_panics_on_units :
    oneUnit.Yields 1 ∧ oneUnit.Truthful 1 ∧ unitSite.slice.Allocates 1 ∧
      ¬ ∃ fuel s, Make.uniqueFromIter unitSite oneUnit fuel .start = .ok () s := by
  refine ⟨⟨fun call before => ⟨(), ?_⟩, rfl⟩, ⟨le_rfl, fun upper same => ?_⟩,
    ⟨_, rfl, rfl⟩, ?_⟩
  · obtain rfl : call = 0 := by omega
    rfl
  · obtain rfl := Option.some.inj same
    exact le_rfl
  · rintro ⟨fuel, s, returned⟩
    obtain ⟨after, panicked⟩ :=
      Make.uniqueFromIter_sizeZero (show oneUnit.Exact from rfl)
        (show unitSite.elem.shape.size = 0 from rfl) fuel
    rw [panicked] at returned
    cases returned

/-- Two bytes behind a hint that is exact, and behind one that is not. -/
theorem from_iter_ignores_hint_witness :
    ∃ block, (∃ fuel s, Make.uniqueFromIter byteSite
        ⟨(2, some 2), twoItems.next⟩ fuel .start = .ok () s ∧ s.block = some block) ∧
      ∃ fuel s, Make.uniqueFromIter byteSite
        ⟨(0, none), twoItems.next⟩ fuel .start = .ok () s ∧ s.block = some block := by
  have yields : (⟨(2, some 2), twoItems.next⟩ : Iter Nat).Yields 2 :=
    ⟨fun call before => ⟨call + 10, if_pos before⟩, rfl⟩
  obtain ⟨block, _, builds⟩ :=
    from_iter_ignores_hint byteSite ⟨(2, some 2), twoItems.next⟩ 2 yields ⟨_, rfl, rfl⟩
  refine ⟨block, ?_, ?_⟩
  · obtain ⟨enough, built⟩ := (builds ⟨(2, some 2), twoItems.next⟩ rfl
      ⟨le_rfl, by simp⟩).1 (.inr ⟨by decide, .inr rfl⟩)
    exact ⟨enough, (built enough le_rfl).1⟩
  · obtain ⟨enough, built⟩ := (builds ⟨(0, none), twoItems.next⟩ rfl
      ⟨Nat.zero_le _, by simp⟩).1 (.inl (by decide))
    exact ⟨enough, (built enough le_rfl).1⟩

end BackdropArc
