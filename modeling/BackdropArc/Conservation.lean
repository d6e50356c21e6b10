import BackdropArc.StepSoundness

/-!
# Conservation of references

In every run in which no step duplicates a reference and no count grows to the
end of the machine word, the count of each block is the number of references
that the program still accounts for.
-/

namespace BackdropArc

open GuardedRuns CountedLifecycle

variable {N : Nat} {V S : Type}

theorem Heap.forall_counted {heap : Heap V S} (good : Nat → Prop) :
    (∀ block ∈ heap, block.fate.isLive = true → good block.count) ↔
      ∀ p count, heap.status p = .counted count → good count := by
  constructor
  · intro blocks p count counted
    obtain ⟨block, accessed, rfl⟩ := Heap.access_of_counted counted
    obtain ⟨found, live⟩ := Heap.access_eq_ok.mp accessed
    exact blocks block (List.mem_of_getElem? found) live
  · intro counts block member live
    obtain ⟨p, found⟩ := List.getElem?_of_mem member
    exact counts p _ (Heap.status_of_access (Heap.access_eq_ok.mpr ⟨found, live⟩))

namespace Sys

variable {s : Sys N V S} {word : MachineWord} {p count : Nat}

instance (word : MachineWord) (s : Sys N V S) : Decidable (s.Roomy word) :=
  decidable_of_iff _ (Heap.forall_counted fun count => count + 1 < word.modulus)

def Modest (word : MachineWord) (s : Sys N V S) : Prop :=
  ∀ p count, s.heap.status p = .counted count → count ≤ maxRefcount word

instance (word : MachineWord) (s : Sys N V S) : Decidable (s.Modest word) :=
  decidable_of_iff _ (Heap.forall_counted fun count => count ≤ maxRefcount word)

theorem Modest.roomy (modest : s.Modest word) : s.Roomy word := by
  intro p count counted
  have limit := modest p count counted
  have width := word.modulus_eq
  unfold maxRefcount at limit
  omega

/-- The steps of a regular run: no count is at the end of the machine word,
and no reference is duplicated. -/
def Regular (word : MachineWord) (s : Sys N V S) (move : Fin N × Act N V S) : Prop :=
  s.Roomy word ∧ s.Keeps move

instance (word : MachineWord) (s : Sys N V S) (move : Fin N × Act N V S) :
    Decidable (s.Regular word move) :=
  inferInstanceAs (Decidable (_ ∧ _))

/-- The run lemma: the accounts are in order in every state of a regular run. -/
theorem sound_of_reaches
    (run : Reaches (step word) (Regular word) (start N V S) s) : s.Sound :=
  run.invariant (start_sound N V S) fun _ _ _ sound regular stepped =>
    sound.stepped regular.1 regular.2 stepped

/-- The steps of a run whose counts stay at or below the soft limit. -/
def ModestStep (word : MachineWord) (s : Sys N V S) (move : Fin N × Act N V S) : Prop :=
  s.Modest word ∧ s.Keeps move

instance (word : MachineWord) (s : Sys N V S) (move : Fin N × Act N V S) :
    Decidable (s.ModestStep word move) :=
  inferInstanceAs (Decidable (_ ∧ _))

/-- Conservation: in every state reached, the count of a block that is not
freed is the number of live owning handles, of references that calls in
progress own, of references that iterators reserve, and of leaked ones. -/
theorem count_eq_references (word : MachineWord)
    (run : Reaches (step word) (ModestStep word) (start N V S) s)
    (counted : s.heap.status p = .counted count) :
    count = s.liveHandles p + s.inFlight p + s.arcsLeft p + s.heap.leakedAt p := by
  have regular : Reaches (step word) (Regular word) (start N V S) s :=
    run.mono fun _ _ modest => ⟨modest.1.roomy, modest.2⟩
  exact ((sound_of_reaches regular).owners_of_counted counted).symm

/-- Two threads: a clone between its increment and its return, and a reserved
iterator. -/
theorem count_eq_references_witness :
    ∃ s : Sys 2 Nat Unit, s.heap.status 0 = .counted 5 ∧
      5 = s.liveHandles 0 + s.inFlight 0 + s.arcsLeft 0 + s.heap.leakedAt 0 :=
  ⟨_, rfl, count_eq_references .wide
    (reaches_of_follow
      [(0, .new 7 ()), (0, .cloneMany (.handle 0) 3), (1, .clone (.handle 0) .clone),
        (1, .advance), (0, .next 0)] rfl) rfl⟩

end Sys

end BackdropArc
