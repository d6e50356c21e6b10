import Mathlib.Data.Finset.Lattice.Basic
import Mathlib.Data.Finset.Insert
import Mathlib.Data.Fintype.Defs
import Mathlib.Order.Lattice

/-!
# Atomic locations that only read-modify-writes change

An atomic location is the list of the values it has had, in modification
order.  A load may read any message that is not older than what its thread
already knows, and a read-modify-write reads the newest one.  Since every
later message of such a location continues the release sequence of the earlier
ones, a message carries everything that was released up to it, and an acquire
operation that reads it learns all of that.

What a thread knows is a view: the oldest message it may still read, and the
accesses that happened before its next one.
-/

namespace ReleaseHistory

/-- The orderings of atomic operations.  Only what they acquire and release
matters here; the total order of the `seqCst` operations is not modelled. -/
inductive MemoryOrdering
  | relaxed
  | acquire
  | release
  | acqRel
  | seqCst
  deriving DecidableEq, Repr

namespace MemoryOrdering

def acquires : MemoryOrdering → Bool
  | .acquire | .acqRel | .seqCst => true
  | .relaxed | .release => false

def releases : MemoryOrdering → Bool
  | .release | .acqRel | .seqCst => true
  | .relaxed | .acquire => false

instance : Fintype MemoryOrdering where
  elems := {.relaxed, .acquire, .release, .acqRel, .seqCst}
  complete ordering := by cases ordering <;> decide

end MemoryOrdering

/-- What a party knows of one location and of the accesses made so far. -/
@[ext]
structure View (Event : Type*) where
  seen : Nat
  past : Finset Event
  deriving DecidableEq

namespace View

variable {Event : Type*} {v w : View Event}

instance : LE (View Event) :=
  ⟨fun v w => v.seen ≤ w.seen ∧ v.past ⊆ w.past⟩

theorem le_def : v ≤ w ↔ v.seen ≤ w.seen ∧ v.past ⊆ w.past :=
  Iff.rfl

instance [DecidableEq Event] (v w : View Event) : Decidable (v ≤ w) :=
  inferInstanceAs (Decidable (_ ∧ _))

instance : PartialOrder (View Event) where
  le_refl _ := ⟨Nat.le_refl _, Finset.Subset.refl _⟩
  le_trans _ _ _ first second :=
    ⟨first.1.trans second.1, first.2.trans second.2⟩
  le_antisymm _ _ first second :=
    View.ext (Nat.le_antisymm first.1 second.1)
      (Finset.Subset.antisymm first.2 second.2)

instance [DecidableEq Event] : SemilatticeSup (View Event) where
  sup v w := ⟨max v.seen w.seen, v.past ∪ w.past⟩
  le_sup_left _ _ := ⟨Nat.le_max_left _ _, Finset.subset_union_left⟩
  le_sup_right _ _ := ⟨Nat.le_max_right _ _, Finset.subset_union_right⟩
  sup_le _ _ _ first second :=
    ⟨Nat.max_le.mpr ⟨first.1, second.1⟩, Finset.union_subset first.2 second.2⟩

instance : OrderBot (View Event) where
  bot := ⟨0, ∅⟩
  bot_le _ := ⟨Nat.zero_le _, Finset.empty_subset _⟩

@[simp]
theorem seen_sup [DecidableEq Event] (v w : View Event) :
    (v ⊔ w).seen = max v.seen w.seen :=
  rfl

@[simp]
theorem past_sup [DecidableEq Event] (v w : View Event) :
    (v ⊔ w).past = v.past ∪ w.past :=
  rfl

/-- The view after an access of its own. -/
def after [DecidableEq Event] (v : View Event) (event : Event) : View Event :=
  { v with past := insert event v.past }

@[simp]
theorem seen_after [DecidableEq Event] (v : View Event) (event : Event) :
    (v.after event).seen = v.seen :=
  rfl

theorem mem_after [DecidableEq Event] (v : View Event) (event : Event) :
    event ∈ (v.after event).past :=
  Finset.mem_insert_self _ _

theorem le_after [DecidableEq Event] (v : View Event) (event : Event) :
    v ≤ v.after event :=
  ⟨Nat.le_refl _, Finset.subset_insert _ _⟩

/-- The view after reading message `i`, if nothing is acquired from it. -/
def upTo (v : View Event) (i : Nat) : View Event :=
  { v with seen := max v.seen i }

@[simp]
theorem seen_upTo (v : View Event) (i : Nat) : (v.upTo i).seen = max v.seen i :=
  rfl

@[simp]
theorem past_upTo (v : View Event) (i : Nat) : (v.upTo i).past = v.past :=
  rfl

theorem le_upTo (v : View Event) (i : Nat) : v ≤ v.upTo i :=
  ⟨Nat.le_max_left _ _, Finset.Subset.refl _⟩

end View

/-- A value of the location, with everything that was released up to it. -/
structure Message (Event : Type*) where
  value : Nat
  released : View Event

/-- The messages of a location in modification order, the last one included. -/
structure Location (Event : Type*) where
  messages : Nat → Message Event
  last : Nat

namespace Location

variable {Event : Type*} [DecidableEq Event]

/-- A location whose only value was not written atomically. -/
def initial (value : Nat) : Location Event where
  messages _ := ⟨value, ⊥⟩
  last := 0

def newest (location : Location Event) : Message Event :=
  location.messages location.last

/-- Coherence: nothing older than what was already seen may be read. -/
def Readable (location : Location Event) (view : View Event) (i : Nat) : Prop :=
  view.seen ≤ i ∧ i ≤ location.last

instance (location : Location Event) (view : View Event) (i : Nat) :
    Decidable (location.Readable view i) :=
  inferInstanceAs (Decidable (_ ∧ _))

/-- What is known after reading message `i`. -/
def learn (location : Location Event) (ordering : MemoryOrdering)
    (view : View Event) (i : Nat) : View Event :=
  (view ⊔ if ordering.acquires then (location.messages i).released else ⊥).upTo i

/-- What is known after a read-modify-write. -/
def learnWrite (location : Location Event) (ordering : MemoryOrdering)
    (view : View Event) : View Event :=
  (location.learn ordering view location.last).upTo (location.last + 1)

/-- The read-modify-write that `change`s the newest value. -/
def modify (location : Location Event) (ordering : MemoryOrdering)
    (view : View Event) (change : Nat → Nat) : Location Event where
  messages := Function.update location.messages (location.last + 1)
    { value := change location.newest.value
      released := location.newest.released ⊔
        if ordering.releases then location.learnWrite ordering view else ⊥ }
  last := location.last + 1

variable {location : Location Event} {ordering : MemoryOrdering} {view : View Event}
  {change : Nat → Nat} {i : Nat}

theorem le_learn : view ≤ location.learn ordering view i :=
  le_sup_left.trans (View.le_upTo _ _)

theorem le_seen_learn : i ≤ (location.learn ordering view i).seen :=
  Nat.le_max_right _ _

/-- An acquire operation learns what the message it reads carries. -/
theorem released_le_learn (acquires : ordering.acquires = true) :
    (location.messages i).released ≤ location.learn ordering view i := by
  unfold learn
  rw [if_pos acquires]
  exact le_sup_right.trans (View.le_upTo _ _)

theorem le_learnWrite : view ≤ location.learnWrite ordering view :=
  le_learn.trans (View.le_upTo _ _)

theorem last_lt_seen_learnWrite :
    location.last < (location.learnWrite ordering view).seen :=
  Nat.le_max_right _ _

@[simp]
theorem last_modify : (location.modify ordering view change).last = location.last + 1 :=
  rfl

@[simp]
theorem value_newest_modify :
    (location.modify ordering view change).newest.value =
      change location.newest.value := by
  simp [modify, newest]

theorem messages_modify (old : i ≤ location.last) :
    (location.modify ordering view change).messages i = location.messages i := by
  unfold modify
  exact Function.update_of_ne (by omega) _ _

/-- The newest message carries on what the one before it carried. -/
theorem released_le_modify :
    location.newest.released ≤
      (location.modify ordering view change).newest.released := by
  simp only [modify, newest, Function.update_self]
  exact le_sup_left

/-- A release publishes everything its thread knows. -/
theorem learnWrite_le_modify (releases : ordering.releases = true) :
    location.learnWrite ordering view ≤
      (location.modify ordering view change).newest.released := by
  simp only [modify, newest, Function.update_self, if_pos releases]
  exact le_sup_right

/-- An acquiring read-modify-write knows all that it publishes. -/
theorem modify_le_learnWrite (acquires : ordering.acquires = true) :
    (location.modify ordering view change).newest.released ≤
      location.learnWrite ordering view := by
  have read : location.newest.released ≤ location.learnWrite ordering view :=
    (released_le_learn acquires).trans (View.le_upTo _ _)
  simp only [modify, newest, Function.update_self]
  apply sup_le read
  split
  · exact le_rfl
  · exact bot_le

end Location

end ReleaseHistory
