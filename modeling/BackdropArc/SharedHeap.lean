import BackdropArc.GuardedRuns
import BackdropArc.MachineWord
import Mathlib.Data.List.Basic

/-!
# The shared heap and its atomic counts

Every allocation of the crate is one `ArcInner`: an atomic count followed by
the data.  Blocks are never removed from the model's heap.  A block that was
handed to a backdrop strategy or moved out keeps its place with a fate that
makes every later access an error, so a use after free is a step that stops,
not a step that quietly succeeds.
-/

namespace BackdropArc

open GuardedRuns

/-- `MAX_REFCOUNT`, the soft limit on the number of references. -/
def maxRefcount (word : MachineWord) : Nat :=
  word.isizeMax

/-- Why a step does not lead to another state. -/
inductive Stop
  /-- The borrow checker or the state of the thread rules the step out. -/
  | refused
  /-- The step would touch a block that was already given away. -/
  | useAfterFree
  /-- `abort()` ends the process. -/
  | aborted
  /-- A debug assertion of the crate fails. -/
  | assertionFailed
  deriving DecidableEq, Repr

/-- The reasons to stop that a correct library must exclude. -/
def Stop.Faulty (stop : Stop) : Prop :=
  stop = .useAfterFree ∨ stop = .assertionFailed

theorem Stop.not_faulty_refused : ¬ Stop.refused.Faulty := by
  simp [Faulty]

theorem Stop.not_faulty_aborted : ¬ Stop.aborted.Faulty := by
  simp [Faulty]

inductive Fate (S : Type)
  | live
  | backdropped (strategy : S)
  | movedOut
  deriving DecidableEq, Repr

def Fate.isLive {S : Type} : Fate S → Bool
  | .live => true
  | .backdropped _ | .movedOut => false

/-- The object that an `Arc` points to. -/
structure ArcInner (V : Type) where
  count : Nat
  data : V
  deriving DecidableEq, Repr

/-- A heap block: its contents, its fate, and the number of references to it
whose handles were passed to `mem::forget`. -/
structure Block (V S : Type) extends ArcInner V where
  fate : Fate S
  leaked : Nat
  deriving DecidableEq, Repr

/-- All blocks ever allocated; a pointer is a position. -/
abbrev Heap (V S : Type) :=
  List (Block V S)

/-- What the accounting needs to know about one address. -/
inductive Status
  | absent
  | counted (count : Nat)
  | freed
  deriving DecidableEq, Repr

def Block.status {V S : Type} (block : Block V S) : Status :=
  if block.fate.isLive then .counted block.count else .freed

namespace Heap

variable {V S : Type}

def status (heap : Heap V S) (p : Nat) : Status :=
  (heap[p]?).elim .absent Block.status

def leakedAt (heap : Heap V S) (p : Nat) : Nat :=
  (heap[p]?).elim 0 Block.leaked

/-- The payload at `p`, whatever its fate. -/
def dataAt (heap : Heap V S) (p : Nat) : Option V :=
  (heap[p]?).map (·.data)

def fateAt (heap : Heap V S) (p : Nat) : Option (Fate S) :=
  (heap[p]?).map (·.fate)

/-- Any access to a block, which must not have been given away. -/
def access (heap : Heap V S) (p : Nat) : Except Stop (Block V S) :=
  match heap[p]? with
  | some block => if block.fate.isLive then .ok block else .error .useAfterFree
  | none => .error .useAfterFree

def load (heap : Heap V S) (p : Nat) : Except Stop Nat := do
  let block ← heap.access p
  pure block.count

/-- `count.fetch_add(1)`: the old count, and the wrapping sum stored. -/
def fetchAdd (word : MachineWord) (heap : Heap V S) (p : Nat) :
    Except Stop (Nat × Heap V S) := do
  let block ← heap.access p
  pure (block.count,
    heap.set p { block with count := (block.count + 1) % word.modulus })

/-- `count.fetch_sub(1)`: the old count, and the wrapping difference stored. -/
def fetchSub (word : MachineWord) (heap : Heap V S) (p : Nat) :
    Except Stop (Nat × Heap V S) := do
  let block ← heap.access p
  pure (block.count,
    heap.set p
      { block with count := (block.count + word.modulus - 1) % word.modulus })

/-- `count.fetch_update`, whose closure may abort. -/
def fetchUpdate (update : Nat → Except Stop Nat) (heap : Heap V S) (p : Nat) :
    Except Stop (Heap V S) := do
  let block ← heap.access p
  let count ← update block.count
  pure (heap.set p { block with count := count })

/-- `Box::new(ArcInner { count: 1, data })`; the new block lies at the old
length of the heap. -/
def allocate (heap : Heap V S) (data : V) : Heap V S :=
  heap ++ [{ count := 1, data := data, fate := .live, leaked := 0 }]

def giveAway (heap : Heap V S) (p : Nat) (fate : Fate S) :
    Except Stop (Heap V S) := do
  let block ← heap.access p
  pure (heap.set p { block with fate := fate })

def read (heap : Heap V S) (p : Nat) : Except Stop V := do
  let block ← heap.access p
  pure block.data

def write (heap : Heap V S) (p : Nat) (data : V) : Except Stop (Heap V S) := do
  let block ← heap.access p
  pure (heap.set p { block with data := data })

/-- Record that `references` references to `p` will never be released.  This
touches no memory. -/
def leak (heap : Heap V S) (p references : Nat) : Heap V S :=
  match heap[p]? with
  | some block =>
      heap.set p { block with leaked := block.leaked + references }
  | none => heap

/-- Only the status of `p` changes, to `after`. -/
structure Changes (heap next : Heap V S) (p : Nat) (after : Status) : Prop where
  status_eq : ∀ q, next.status q = if q = p then after else heap.status q
  leakedAt_eq : ∀ q, next.leakedAt q = heap.leakedAt q

theorem access_eq_ok {heap : Heap V S} {p : Nat} {block : Block V S} :
    heap.access p = .ok block ↔
      heap[p]? = some block ∧ block.fate.isLive = true := by
  unfold access
  cases found : heap[p]? with
  | none => simp
  | some other =>
      by_cases live : other.fate.isLive = true
      · simp only [live, if_true, Except.ok.injEq, Option.some.injEq]
        constructor
        · rintro rfl
          exact ⟨rfl, live⟩
        · exact fun both => both.1
      · simp only [live, Option.some.injEq]
        constructor
        · simp
        · rintro ⟨rfl, alive⟩
          exact absurd alive live

theorem status_of_access {heap : Heap V S} {p : Nat} {block : Block V S}
    (accessed : heap.access p = .ok block) :
    heap.status p = .counted block.count := by
  obtain ⟨found, live⟩ := access_eq_ok.mp accessed
  simp [status, Block.status, found, live]

theorem fateAt_of_access {heap : Heap V S} {p : Nat} {block : Block V S}
    (accessed : heap.access p = .ok block) : heap.fateAt p = some .live := by
  obtain ⟨found, live⟩ := access_eq_ok.mp accessed
  cases fate : block.fate with
  | live => simp [fateAt, found, fate]
  | backdropped | movedOut => simp [Fate.isLive, fate] at live

theorem access_of_counted {heap : Heap V S} {p count : Nat}
    (counted : heap.status p = .counted count) :
    ∃ block, heap.access p = .ok block ∧ block.count = count := by
  unfold status Block.status at counted
  cases found : heap[p]? with
  | none => simp [found] at counted
  | some block =>
      by_cases live : block.fate.isLive = true
      · refine ⟨block, access_eq_ok.mpr ⟨found, live⟩, ?_⟩
        simpa [found, live] using counted
      · simp [found, live] at counted

theorem avoids_access {heap : Heap V S} {p count : Nat}
    (counted : heap.status p = .counted count) :
    Avoids Stop.Faulty (heap.access p) := by
  obtain ⟨block, accessed, _⟩ := access_of_counted counted
  exact avoids_ok accessed

/-! ## What an operation overwrites -/

/-- The live `block` at `p` is overwritten by `after`. -/
structure Overwrites (heap next : Heap V S) (p : Nat) (block after : Block V S) : Prop where
  accessed : heap.access p = .ok block
  stored : next = heap.set p after

namespace Overwrites

variable {heap next : Heap V S} {p : Nat} {block after : Block V S}

theorem live (overwrites : heap.Overwrites next p block after) :
    block.fate.isLive = true :=
  (access_eq_ok.mp overwrites.accessed).2

theorem counted (overwrites : heap.Overwrites next p block after) :
    heap.status p = .counted block.count :=
  status_of_access overwrites.accessed

theorem getElem?_eq (overwrites : heap.Overwrites next p block after) (q : Nat) :
    next[q]? = if q = p then some after else heap[q]? := by
  obtain ⟨found, _⟩ := access_eq_ok.mp overwrites.accessed
  obtain ⟨inside, _⟩ := List.getElem?_eq_some_iff.mp found
  rw [overwrites.stored, List.getElem?_set]
  by_cases same : q = p
  · simp [same, inside]
  · simp [same, Ne.symm same]

/-- An observation that does not tell the new block from the old one does not
change. -/
theorem observe_eq {Answer : Type} (overwrites : heap.Overwrites next p block after)
    (observe : Option (Block V S) → Answer)
    (kept : observe (some after) = observe (some block)) (q : Nat) :
    observe next[q]? = observe heap[q]? := by
  rw [overwrites.getElem?_eq]
  by_cases same : q = p
  · rw [if_pos same, same, (access_eq_ok.mp overwrites.accessed).1, kept]
  · rw [if_neg same]

theorem dataAt_eq (overwrites : heap.Overwrites next p block after)
    (sameData : after.data = block.data) : ∀ q, next.dataAt q = heap.dataAt q :=
  overwrites.observe_eq (·.map fun block : Block V S => block.data) (congrArg some sameData)

theorem fateAt_eq (overwrites : heap.Overwrites next p block after)
    (sameFate : after.fate = block.fate) : ∀ q, next.fateAt q = heap.fateAt q :=
  overwrites.observe_eq (·.map Block.fate) (congrArg some sameFate)

theorem changes (overwrites : heap.Overwrites next p block after)
    (sameLeaks : after.leaked = block.leaked) : heap.Changes next p after.status := by
  constructor
  · intro q
    unfold status
    rw [overwrites.getElem?_eq]
    split <;> rfl
  · exact overwrites.observe_eq (·.elim 0 Block.leaked) sameLeaks

/-- A block that stays live only changes its count. -/
theorem counts (overwrites : heap.Overwrites next p block after)
    (sameFate : after.fate = block.fate) (sameLeaks : after.leaked = block.leaked) :
    heap.Changes next p (.counted after.count) := by
  have changes := overwrites.changes sameLeaks
  rwa [Block.status, sameFate, if_pos overwrites.live] at changes

end Overwrites

theorem fetchAdd_overwrites {word : MachineWord} {heap next : Heap V S} {p old : Nat}
    (added : heap.fetchAdd word p = .ok (old, next)) :
    ∃ block, block.count = old ∧
      heap.Overwrites next p block { block with count := (old + 1) % word.modulus } := by
  obtain ⟨block, accessed, result⟩ := bind_eq_ok.mp added
  obtain ⟨rfl, rfl⟩ := Prod.mk.inj (Except.ok.inj result)
  exact ⟨block, rfl, accessed, rfl⟩

theorem fetchSub_overwrites {word : MachineWord} {heap next : Heap V S} {p old : Nat}
    (subtracted : heap.fetchSub word p = .ok (old, next)) :
    ∃ block, block.count = old ∧ heap.Overwrites next p block
      { block with count := (old + word.modulus - 1) % word.modulus } := by
  obtain ⟨block, accessed, result⟩ := bind_eq_ok.mp subtracted
  obtain ⟨rfl, rfl⟩ := Prod.mk.inj (Except.ok.inj result)
  exact ⟨block, rfl, accessed, rfl⟩

theorem fetchUpdate_overwrites {update : Nat → Except Stop Nat} {heap next : Heap V S}
    {p : Nat} (updated : heap.fetchUpdate update p = .ok next) :
    ∃ block new, update block.count = .ok new ∧
      heap.Overwrites next p block { block with count := new } := by
  obtain ⟨block, accessed, rest⟩ := bind_eq_ok.mp updated
  obtain ⟨new, computed, result⟩ := bind_eq_ok.mp rest
  obtain rfl := Except.ok.inj result
  exact ⟨block, new, computed, accessed, rfl⟩

theorem giveAway_overwrites {heap next : Heap V S} {p : Nat} {fate : Fate S}
    (given : heap.giveAway p fate = .ok next) :
    ∃ block, heap.Overwrites next p block { block with fate := fate } := by
  obtain ⟨block, accessed, result⟩ := bind_eq_ok.mp given
  exact ⟨block, accessed, (Except.ok.inj result).symm⟩

theorem write_overwrites {heap next : Heap V S} {p : Nat} {data : V}
    (written : heap.write p data = .ok next) :
    ∃ block, heap.Overwrites next p block { block with data := data } := by
  obtain ⟨block, accessed, result⟩ := bind_eq_ok.mp written
  exact ⟨block, accessed, (Except.ok.inj result).symm⟩

/-! ## The status of the blocks -/

theorem load_eq_ok {heap : Heap V S} {p count : Nat} :
    heap.load p = .ok count ↔ heap.status p = .counted count := by
  unfold load
  rw [bind_eq_ok]
  constructor
  · rintro ⟨block, accessed, result⟩
    have same : block.count = count := by simpa [pure, Except.pure] using result
    rw [status_of_access accessed, same]
  · intro counted
    obtain ⟨block, accessed, same⟩ := access_of_counted counted
    exact ⟨block, accessed, by simp [pure, Except.pure, same]⟩

theorem fetchAdd_spec {word : MachineWord} {heap next : Heap V S}
    {p old : Nat} (added : heap.fetchAdd word p = .ok (old, next)) :
    heap.status p = .counted old ∧
      heap.Changes next p (.counted ((old + 1) % word.modulus)) := by
  obtain ⟨block, rfl, overwrites⟩ := fetchAdd_overwrites added
  exact ⟨overwrites.counted, overwrites.counts rfl rfl⟩

theorem fetchSub_spec {word : MachineWord} {heap next : Heap V S}
    {p old : Nat} (subtracted : heap.fetchSub word p = .ok (old, next)) :
    heap.status p = .counted old ∧
      heap.Changes next p
        (.counted ((old + word.modulus - 1) % word.modulus)) := by
  obtain ⟨block, rfl, overwrites⟩ := fetchSub_overwrites subtracted
  exact ⟨overwrites.counted, overwrites.counts rfl rfl⟩

theorem fetchSub_of_counted {heap : Heap V S} {p old : Nat} (word : MachineWord)
    (counted : heap.status p = .counted old) :
    ∃ next, heap.fetchSub word p = .ok (old, next) := by
  obtain ⟨block, accessed, rfl⟩ := access_of_counted counted
  exact ⟨_, bind_eq_ok.mpr ⟨block, accessed, rfl⟩⟩

theorem giveAway_of_counted {heap : Heap V S} {p old : Nat} (fate : Fate S)
    (counted : heap.status p = .counted old) :
    ∃ next, heap.giveAway p fate = .ok next := by
  obtain ⟨block, accessed, _⟩ := access_of_counted counted
  exact ⟨_, bind_eq_ok.mpr ⟨block, accessed, rfl⟩⟩

theorem write_of_counted {heap : Heap V S} {p old : Nat}
    (counted : heap.status p = .counted old) (data : V) :
    ∃ next, heap.write p data = .ok next := by
  obtain ⟨block, accessed, _⟩ := access_of_counted counted
  exact ⟨_, bind_eq_ok.mpr ⟨block, accessed, rfl⟩⟩

theorem fetchUpdate_spec {update : Nat → Except Stop Nat}
    {heap next : Heap V S} {p : Nat}
    (updated : heap.fetchUpdate update p = .ok next) :
    ∃ old new, heap.status p = .counted old ∧ update old = .ok new ∧
      heap.Changes next p (.counted new) := by
  obtain ⟨block, new, computed, overwrites⟩ := fetchUpdate_overwrites updated
  exact ⟨block.count, new, overwrites.counted, computed, overwrites.counts rfl rfl⟩

theorem giveAway_spec {heap next : Heap V S} {p : Nat} {fate : Fate S}
    (final : fate.isLive = false) (given : heap.giveAway p fate = .ok next) :
    (∃ old, heap.status p = .counted old) ∧ heap.Changes next p .freed := by
  obtain ⟨block, overwrites⟩ := giveAway_overwrites given
  refine ⟨⟨block.count, overwrites.counted⟩, ?_⟩
  simpa [Block.status, final] using overwrites.changes rfl

/-- A block that is given away was live, and no other block is affected. -/
theorem giveAway_fateAt {heap next : Heap V S} {p : Nat} {fate : Fate S}
    (given : heap.giveAway p fate = .ok next) (q : Nat) :
    heap.fateAt p = some .live ∧
      next.fateAt q = if q = p then some fate else heap.fateAt q := by
  obtain ⟨block, overwrites⟩ := giveAway_overwrites given
  refine ⟨fateAt_of_access overwrites.accessed, ?_⟩
  unfold fateAt
  rw [overwrites.getElem?_eq]
  split <;> rfl

theorem fateAt_giveAway {heap next : Heap V S} {p : Nat} {fate : Fate S}
    (given : heap.giveAway p fate = .ok next) : next.fateAt p = some fate := by
  rw [(giveAway_fateAt given p).2, if_pos rfl]

theorem write_spec {heap next : Heap V S} {p : Nat} {data : V}
    (written : heap.write p data = .ok next) :
    ∃ old, heap.status p = .counted old ∧
      heap.Changes next p (.counted old) := by
  obtain ⟨block, overwrites⟩ := write_overwrites written
  exact ⟨block.count, overwrites.counted, overwrites.counts rfl rfl⟩

theorem status_eq_absent {heap : Heap V S} {p : Nat} :
    heap.status p = .absent ↔ heap.length ≤ p := by
  unfold status Block.status
  cases found : heap[p]? with
  | none => simpa using List.getElem?_eq_none_iff.mp found
  | some block =>
      have inside : p < heap.length := (List.getElem?_eq_some_iff.mp found).1
      simp only [Option.elim_some]
      constructor
      · split <;> simp
      · intro outside
        omega

theorem allocate_spec (heap : Heap V S) (data : V) :
    heap.status heap.length = .absent ∧
      heap.Changes (heap.allocate data) heap.length (.counted 1) := by
  refine ⟨status_eq_absent.mpr le_rfl, ?_, ?_⟩
  · intro q
    unfold status allocate
    rcases Nat.lt_trichotomy q heap.length with before | same | after
    · rw [List.getElem?_append_left before, if_neg (by omega)]
    · simp [same, Block.status, Fate.isLive]
    · rw [if_neg (by omega), List.getElem?_eq_none (by simp; omega),
        List.getElem?_eq_none (by omega)]
  · intro q
    unfold leakedAt allocate
    rcases Nat.lt_trichotomy q heap.length with before | same | after
    · rw [List.getElem?_append_left before]
    · simp [same]
    · rw [List.getElem?_eq_none (by simp; omega),
        List.getElem?_eq_none (by omega)]

/-- Leaking a reference is noted beside the block. -/
theorem observe_leak {Answer : Type} (observe : Option (Block V S) → Answer)
    (kept : ∀ (block : Block V S) leaked,
      observe (some { block with leaked := leaked }) = observe (some block))
    (heap : Heap V S) (p references q : Nat) :
    observe (heap.leak p references)[q]? = observe heap[q]? := by
  unfold leak
  cases found : heap[p]? with
  | none => rfl
  | some block =>
      obtain ⟨inside, here⟩ := List.getElem?_eq_some_iff.mp found
      simp only [List.getElem?_set]
      by_cases same : q = p
      · simp [same, inside, here, kept]
      · simp [Ne.symm same]

@[simp]
theorem status_leak (heap : Heap V S) (p references q : Nat) :
    (heap.leak p references).status q = heap.status q :=
  observe_leak (·.elim Status.absent Block.status) (fun _ _ => rfl) heap p references q

theorem leakedAt_leak {heap : Heap V S} {p : Nat}
    (present : heap.status p ≠ .absent) (references q : Nat) :
    (heap.leak p references).leakedAt q =
      heap.leakedAt q + if q = p then references else 0 := by
  have inside : p < heap.length := by
    by_contra outside
    exact present (status_eq_absent.mpr (by omega))
  unfold leak leakedAt
  simp only [List.getElem?_eq_getElem inside, List.getElem?_set]
  by_cases same : q = p
  · subst same
    simp [inside]
  · simp [same, Ne.symm same]

/-! ## Data -/

/-- Only the status of `p` changes, to `after`, and no data does. -/
structure Recounts (heap next : Heap V S) (p : Nat) (after : Status) : Prop where
  changes : heap.Changes next p after
  dataAt_eq : ∀ q, next.dataAt q = heap.dataAt q

section Data

variable {word : MachineWord} {heap next : Heap V S} {p : Nat}

theorem read_eq_ok {data : V} :
    heap.read p = .ok data ↔
      (∃ count, heap.status p = .counted count) ∧ heap.dataAt p = some data := by
  unfold read
  rw [bind_eq_ok]
  constructor
  · rintro ⟨block, accessed, result⟩
    obtain rfl := Except.ok.inj result
    refine ⟨⟨_, status_of_access accessed⟩, ?_⟩
    simp [dataAt, (access_eq_ok.mp accessed).1]
  · rintro ⟨⟨count, counted⟩, found⟩
    obtain ⟨block, accessed, _⟩ := access_of_counted counted
    have same : block.data = data := by
      simpa [dataAt, (access_eq_ok.mp accessed).1] using found
    exact ⟨block, accessed, congrArg Except.ok same⟩

theorem lt_length_of_read {data : V} (here : heap.read p = .ok data) :
    p < heap.length := by
  obtain ⟨⟨count, counted⟩, _⟩ := read_eq_ok.mp here
  by_contra outside
  have absent : heap.status p = .absent := status_eq_absent.mpr (by omega)
  simp [absent] at counted

theorem fetchAdd_recounts {old : Nat} (added : heap.fetchAdd word p = .ok (old, next)) :
    heap.Recounts next p (.counted ((old + 1) % word.modulus)) := by
  obtain ⟨block, _, overwrites⟩ := fetchAdd_overwrites added
  exact ⟨(fetchAdd_spec added).2, overwrites.dataAt_eq rfl⟩

theorem fetchSub_recounts {old : Nat}
    (subtracted : heap.fetchSub word p = .ok (old, next)) :
    heap.Recounts next p (.counted ((old + word.modulus - 1) % word.modulus)) := by
  obtain ⟨block, _, overwrites⟩ := fetchSub_overwrites subtracted
  exact ⟨(fetchSub_spec subtracted).2, overwrites.dataAt_eq rfl⟩

theorem giveAway_recounts {fate : Fate S} (final : fate.isLive = false)
    (given : heap.giveAway p fate = .ok next) : heap.Recounts next p .freed := by
  obtain ⟨block, overwrites⟩ := giveAway_overwrites given
  exact ⟨(giveAway_spec final given).2, overwrites.dataAt_eq rfl⟩

theorem fetchUpdate_dataAt {update : Nat → Except Stop Nat}
    (updated : heap.fetchUpdate update p = .ok next) (q : Nat) :
    next.dataAt q = heap.dataAt q := by
  obtain ⟨block, _, _, overwrites⟩ := fetchUpdate_overwrites updated
  exact overwrites.dataAt_eq rfl q

theorem write_dataAt {data : V} (written : heap.write p data = .ok next) (q : Nat) :
    next.dataAt q = if q = p then some data else heap.dataAt q := by
  obtain ⟨block, overwrites⟩ := write_overwrites written
  unfold dataAt
  rw [overwrites.getElem?_eq]
  split <;> rfl

@[simp]
theorem dataAt_leak (heap : Heap V S) (p references q : Nat) :
    (heap.leak p references).dataAt q = heap.dataAt q :=
  observe_leak (·.map fun block : Block V S => block.data) (fun _ _ => rfl) heap p references q

theorem fateAt_leak (heap : Heap V S) (p references q : Nat) :
    (heap.leak p references).fateAt q = heap.fateAt q :=
  observe_leak (·.map Block.fate) (fun _ _ => rfl) heap p references q

theorem dataAt_allocate_of_found {data other : V} (here : heap.dataAt p = some data) :
    (heap.allocate other).dataAt p = some data := by
  unfold dataAt at here ⊢
  obtain ⟨block, found, rfl⟩ := Option.map_eq_some_iff.mp here
  obtain ⟨inside, _⟩ := List.getElem?_eq_some_iff.mp found
  rw [allocate, List.getElem?_append_left inside, found, Option.map_some]

theorem Recounts.trans {last : Heap V S} {after final : Status}
    (first : heap.Recounts next p after) (second : next.Recounts last p final) :
    heap.Recounts last p final where
  changes := by
    constructor
    · intro q
      rw [second.changes.status_eq, first.changes.status_eq]
      split <;> rfl
    · intro q
      rw [second.changes.leakedAt_eq, first.changes.leakedAt_eq]
  dataAt_eq q := by rw [second.dataAt_eq, first.dataAt_eq]

theorem dataAt_allocate (heap : Heap V S) (data : V) (q : Nat) :
    (heap.allocate data).dataAt q =
      if q = heap.length then some data else heap.dataAt q := by
  unfold dataAt allocate
  rcases Nat.lt_trichotomy q heap.length with before | same | after
  · rw [List.getElem?_append_left before, if_neg (by omega)]
  · simp [same]
  · rw [if_neg (by omega), List.getElem?_eq_none (by simp; omega),
      List.getElem?_eq_none (by omega)]

theorem read_allocate (heap : Heap V S) (data : V) {q : Nat} {other : V} :
    (heap.allocate data).read q = .ok other ↔
      if q = heap.length then other = data else heap.read q = .ok other := by
  have changes := (allocate_spec heap data).2
  rw [read_eq_ok, changes.status_eq, dataAt_allocate]
  split
  · simp [eq_comm]
  · exact read_eq_ok.symm

theorem Recounts.read_before {after : Status} {q : Nat} {data : V}
    (recounts : heap.Recounts next p after)
    (counted : ∃ count, heap.status p = .counted count)
    (here : next.read q = .ok data) : heap.read q = .ok data := by
  obtain ⟨live, found⟩ := read_eq_ok.mp here
  rw [recounts.dataAt_eq] at found
  refine read_eq_ok.mpr ⟨?_, found⟩
  by_cases same : q = p
  · rwa [same]
  · rwa [recounts.changes.status_eq, if_neg same] at live

end Data

end Heap

end BackdropArc
