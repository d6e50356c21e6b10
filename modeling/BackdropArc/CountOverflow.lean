import BackdropArc.Conservation
import BackdropArc.StepFrames
import BackdropArc.StepSafety

/-!
# How far a count can grow

`clone` increments the count first and aborts afterwards, so several threads
can push the count past the soft limit at the same time.  Each of them stays
stuck before its check until it aborts the process, which bounds the excess by
the number of threads.  With enough threads the count does wrap around.
-/

namespace BackdropArc

open GuardedRuns CountedLifecycle

variable {N : Nat} {V S : Type}

/-- Whether the call has incremented the count of `p` past the soft limit. -/
def Op.pastLimit (word : MachineWord) (p : Nat) : Op V S → Nat
  | .cloned source _ _ old =>
      if source.p = p ∧ maxRefcount word < old then 1 else 0
  | _ => 0

namespace Sys

variable {s next : Sys N V S} {t : Fin N} {word : MachineWord} {p : Nat}

/-- The number of threads that have incremented the count of `p` past the
soft limit and have not aborted yet. -/
def pastLimit (word : MachineWord) (s : Sys N V S) (p : Nat) : Nat :=
  ∑ t, (s.threads t).op.pastLimit word p

theorem op_pastLimit_le (op : Op V S) : op.pastLimit word p ≤ 1 := by
  unfold Op.pastLimit
  split
  · split <;> omega
  · omega

theorem pastLimit_le (word : MachineWord) (s : Sys N V S) (p : Nat) : s.pastLimit word p ≤ N := by
  have each := Finset.sum_le_card_nsmul Finset.univ
    (fun t => (s.threads t).op.pastLimit word p) 1 fun t _ => op_pastLimit_le _
  simpa [pastLimit] using each

/-- A thread that is past the limit can only abort. -/
theorem pastLimit_of_step {move : Fin N × Act N V S}
    (stepped : step word s move = .ok next) :
    (s.threads move.1).op.pastLimit word p = 0 := by
  obtain ⟨t, act⟩ := move
  cases op : (s.threads t).op with
  | cloned source form strategy old =>
      rcases step_cases stepped with ⟨rfl, advanced⟩ | ⟨idle, _⟩
      · have below : old ≤ maxRefcount word := by cases advanced <;> simp_all
        simp [Op.pastLimit, below]
      · simp [op] at idle
  | idle | cloning | tested | moving | dropping | dropLoad | dropSlow => rfl

theorem pastLimit_next {move : Fin N × Act N V S}
    (stepped : step word s move = .ok next) (p : Nat) :
    next.pastLimit word p =
      s.pastLimit word p + (next.threads move.1).op.pastLimit word p := by
  have moved := sum_of_others (step_frame stepped).others
    fun thread => thread.op.pastLimit word p
  rw [pastLimit_of_step stepped, Nat.add_zero] at moved
  exact moved

/-- No count is further past the limit than the threads that pushed it. -/
def WithinLimit (word : MachineWord) (s : Sys N V S) : Prop :=
  ∀ p count, s.heap.status p = .counted count →
    count ≤ maxRefcount word + 1 + s.pastLimit word p

theorem WithinLimit.changed {q : Nat} {after : Status} (within : s.WithinLimit word)
    (changes : s.heap.Changes next.heap q after)
    (threads : ∀ p, s.pastLimit word p ≤ next.pastLimit word p)
    (here : ∀ count, after = .counted count →
      count ≤ maxRefcount word + 1 + next.pastLimit word q) :
    next.WithinLimit word := by
  intro p count counted
  rw [changes.status_eq] at counted
  split at counted
  · next same => exact same ▸ here count counted
  · have bound := within p count counted
    have more := threads p
    omega

theorem WithinLimit.kept (within : s.WithinLimit word)
    (same : ∀ p, next.heap.status p = s.heap.status p)
    (threads : ∀ p, s.pastLimit word p ≤ next.pastLimit word p) :
    next.WithinLimit word := by
  intro p count counted
  have bound := within p count (same p ▸ counted)
  have more := threads p
  omega

theorem le_maxRefcount_of_cloneMany {inc old new : Nat}
    (computed : cloneManyUpdate word inc old = .ok new) : new ≤ maxRefcount word := by
  unfold cloneManyUpdate at computed
  split at computed
  · simp at computed
  · split at computed
    · simp at computed
    · obtain rfl := Except.ok.inj computed
      omega

theorem le_of_dropIter {arcsLeft old new : Nat}
    (computed : dropIterUpdate arcsLeft old = .ok new) : new ≤ old := by
  unfold dropIterUpdate at computed
  split at computed
  · simp at computed
  · have difference := Except.ok.inj computed
    omega

theorem Fits.changed {q : Nat} {after : Status} (fits : s.Fits word)
    (changes : s.heap.Changes next.heap q after)
    (here : ∀ count, after = .counted count → count < word.modulus) : next.Fits word := by
  intro p count counted
  rw [changes.status_eq] at counted
  split at counted
  · exact here count counted
  · exact fits p count counted

/-- Whatever the steps, a count is a value of the machine word. -/
theorem Fits.stepped {move : Fin N × Act N V S} (fits : s.Fits word)
    (stepped : step word s move = .ok next) : next.Fits word := by
  have width := word.modulus_eq
  cases (step_frame stepped).heap with
  | same heap =>
      intro p count counted
      exact fits p count (heap ▸ counted)
  | leak q references heap =>
      intro p count counted
      rw [heap, Heap.status_leak] at counted
      exact fits p count counted
  | allocate data heap =>
      refine fits.changed (heap ▸ (Heap.allocate_spec s.heap data).2) fun count after => ?_
      obtain rfl : count = 1 := by simpa using after.symm
      omega
  | write q data written =>
      obtain ⟨old, counted, changes⟩ := Heap.write_spec written
      exact fits.changed changes fun count after => fits q count (after ▸ counted)
  | reserve q inc updated =>
      obtain ⟨old, new, _, computed, changes⟩ := Heap.fetchUpdate_spec updated
      refine fits.changed changes fun count after => ?_
      obtain rfl : count = new := by simpa using after.symm
      have limit := le_maxRefcount_of_cloneMany computed
      unfold maxRefcount at limit
      omega
  | giveBack q arcsLeft updated =>
      obtain ⟨old, new, counted, computed, changes⟩ := Heap.fetchUpdate_spec updated
      refine fits.changed changes fun count after => ?_
      obtain rfl : count = new := by simpa using after.symm
      have fewer := le_of_dropIter computed
      have bound := fits q old counted
      omega
  | fetchAdd source form strategy old _ _ added =>
      refine fits.changed (Heap.fetchAdd_spec added).2 fun count after => ?_
      obtain rfl : count = (old + 1) % word.modulus := by simpa using after.symm
      exact Nat.mod_lt _ (by omega)
  | fetchSub ptr rest old _ subtracted =>
      refine fits.changed (Heap.fetchSub_spec subtracted).2 fun count after => ?_
      obtain rfl : count = (old + word.modulus - 1) % word.modulus := by
        simpa using after.symm
      exact Nat.mod_lt _ (by omega)
  | giveAway q fate final given =>
      refine fits.changed (Heap.giveAway_spec final given).2 fun count after => ?_
      simp at after

/-- Every state that a run reaches holds values of the machine word. -/
theorem fits_of_reaches {admits : Sys N V S → Fin N × Act N V S → Prop}
    (run : Reaches (step word) admits (start N V S) s) : s.Fits word := by
  refine run.invariant ?_ fun _ _ _ fits _ stepped => fits.stepped stepped
  intro p count counted
  simp [start, Heap.status] at counted

theorem WithinLimit.stepped {move : Fin N × Act N V S} (within : s.WithinLimit word)
    (sound : s.Sound) (stepped : step word s move = .ok next) :
    next.WithinLimit word := by
  have threads (p : Nat) : s.pastLimit word p ≤ next.pastLimit word p := by
    rw [pastLimit_next stepped]
    omega
  cases (step_frame stepped).heap with
  | same heap => exact within.kept (fun p => by rw [heap]) threads
  | leak q references heap =>
      exact within.kept (fun p => by rw [heap, Heap.status_leak]) threads
  | allocate data heap =>
      refine within.changed (heap ▸ (Heap.allocate_spec s.heap data).2) threads ?_
      intro count counted
      obtain rfl : count = 1 := by simpa using counted.symm
      omega
  | write q data written =>
      obtain ⟨old, counted, changes⟩ := Heap.write_spec written
      refine within.changed changes threads fun count after => ?_
      obtain rfl : count = old := by simpa using after.symm
      have bound := within q count counted
      have more := threads q
      omega
  | reserve q inc updated =>
      obtain ⟨old, new, _, computed, changes⟩ := Heap.fetchUpdate_spec updated
      refine within.changed changes threads fun count after => ?_
      obtain rfl : count = new := by simpa using after.symm
      have limit := le_maxRefcount_of_cloneMany computed
      omega
  | giveBack q arcsLeft updated =>
      obtain ⟨old, new, counted, computed, changes⟩ := Heap.fetchUpdate_spec updated
      refine within.changed changes threads fun count after => ?_
      obtain rfl : count = new := by simpa using after.symm
      have fewer := le_of_dropIter computed
      have bound := within q old counted
      have more := threads q
      omega
  | fetchAdd source form strategy old before after added =>
      obtain ⟨counted, changes⟩ := Heap.fetchAdd_spec added
      refine within.changed changes threads fun count stored => ?_
      obtain rfl : count = (old + 1) % word.modulus := by simpa using stored.symm
      have wrapped := Nat.mod_le (old + 1) word.modulus
      have bound := within source.p old counted
      -- An increment past the limit is paid for by the thread that made it.
      have paid := pastLimit_next stepped source.p
      rw [after] at paid
      by_cases past : maxRefcount word < old
      · simp only [Op.pastLimit, past, and_self, if_true] at paid
        omega
      · omega
  | fetchSub ptr rest old op subtracted =>
      obtain ⟨counted, changes⟩ := Heap.fetchSub_spec subtracted
      refine within.changed changes threads fun count stored => ?_
      obtain rfl : count = (old + word.modulus - 1) % word.modulus := by
        simpa using stored.symm
      have owned : 0 < s.owners ptr.p := owned_of_op (t := move.1) (by
        simp only [op, Op.refs, pointer_refs_self]
        omega)
      have same := sound.owners_of_counted counted
      have wrapped := Nat.mod_le (old - 1) word.modulus
      rw [show old + word.modulus - 1 = old - 1 + word.modulus by omega,
        Nat.add_mod_right]
      have bound := within ptr.p old counted
      have more := threads ptr.p
      omega
  | giveAway q fate final given =>
      refine within.changed (Heap.giveAway_spec final given).2 threads ?_
      intro count counted
      simp at counted

/-- The bound leaves room for one more increment if there are few threads. -/
theorem WithinLimit.roomy (within : s.WithinLimit word) (few : N < word.isizeMax) :
    s.Roomy word := by
  intro p count counted
  have bound := within p count counted
  have all := pastLimit_le word s p
  have width := word.modulus_eq
  unfold maxRefcount at bound
  omega

/-- The run lemma for programs with few threads. -/
theorem sound_of_few (few : N < word.isizeMax)
    (run : Reaches (step word) Keeps (start N V S) s) :
    s.Sound ∧ s.WithinLimit word := by
  induction run with
  | refl =>
      refine ⟨start_sound N V S, fun p count counted => ?_⟩
      simp [start, Heap.status] at counted
  | tail move _ keeps stepped ih =>
      obtain ⟨sound, within⟩ := ih
      exact ⟨sound.stepped (within.roomy few) keeps stepped,
        within.stepped sound stepped⟩

/-- With few threads every run that duplicates no reference is regular. -/
theorem regular_of_few (few : N < word.isizeMax)
    (run : Reaches (step word) Keeps (start N V S) s) :
    Reaches (step word) (Regular word) (start N V S) s := by
  induction run with
  | refl => exact .refl
  | tail move run keeps stepped ih =>
      have within := (sound_of_few few run).2
      exact ih.tail move ⟨within.roomy few, keeps⟩ stepped

/-- As long as no thread has pushed a count past the limit, the next `fetch_add`
has room, or pushes. -/
theorem WithinLimit.roomFor {move : Fin N × Act N V S} (within : s.WithinLimit word)
    (stepped : step word s move = .ok next)
    (unpushed : ∀ p, next.pastLimit word p = 0) : s.RoomFor word move.1 := by
  obtain ⟨t, act⟩ := move
  intro source form strategy count op counted
  have width := word.modulus_eq
  have bound := within source.p count counted
  have before := pastLimit_next stepped source.p
  have after := unpushed source.p
  unfold maxRefcount at bound
  rcases step_cases stepped with ⟨_, advanced⟩ | ⟨idle, _⟩
  · have result := advance_eq_ok.mpr advanced
    simp only [Sys.advance, op] at result
    obtain ⟨⟨old, heap⟩, added, same⟩ := bind_eq_ok.mp result
    obtain rfl := Except.ok.inj same
    obtain rfl : old = count := by
      simpa [counted] using (Heap.fetchAdd_spec added).1.symm
    rw [after] at before
    simp only [setOp, Function.update_self, Op.pastLimit, true_and] at before
    unfold maxRefcount at before
    split at before <;> omega
  · simp [op] at idle

/-- The run lemma for programs in which no thread is past the limit, however
many threads there are. -/
theorem sound_of_unpushed (run : Reaches (step word) Keeps (start N V S) s)
    (unpushed : ∀ p, s.pastLimit word p = 0) : s.Sound ∧ s.WithinLimit word := by
  induction run with
  | refl =>
      refine ⟨start_sound N V S, fun p count counted => ?_⟩
      simp [start, Heap.status] at counted
  | tail move before keeps stepped ih =>
      obtain ⟨sound, within⟩ := ih fun p => by
        have grown := pastLimit_next stepped p
        have none := unpushed p
        omega
      exact ⟨sound.stepped_of_fits (fits_of_reaches before)
        (within.roomFor stepped unpushed) keeps stepped, within.stepped sound stepped⟩

theorem cloneMany_spec {source : Source N} {inc : Nat}
    (stepped : step word s (t, .cloneMany source inc) = .ok next) :
    ∃ borrow kind count, s.view source = some (borrow, kind) ∧
      next.heap.status borrow.p = .counted count ∧ count ≤ maxRefcount word := by
  rcases step_cases stepped with ⟨wrong, _⟩ | ⟨_, called⟩
  · simp at wrong
  · cases called with
    | cloneMany viewed updated =>
        obtain ⟨old, new, _, computed, changes⟩ := Heap.fetchUpdate_spec updated
        refine ⟨_, _, new, viewed, ?_, le_maxRefcount_of_cloneMany computed⟩
        rw [changes.status_eq, if_pos rfl]

/-- The count can never wrap: with fewer than `isize::MAX` threads, in every
state of every run that duplicates no reference, each count exceeds the soft
limit by at most one and the number of threads that pushed it past the limit,
so it has room for the next `fetch_add`.  It is the exact number of references,
and `clone_many` never stores a count above the limit. -/
theorem count_never_wraps (word : MachineWord) (few : N < word.isizeMax)
    (run : Reaches (step word) Keeps (start N V S) s) :
    (∀ p count, s.heap.status p = .counted count →
      count ≤ maxRefcount word + 1 + s.pastLimit word p ∧
        count + 1 < word.modulus ∧ count = s.owners p) ∧
      ∀ t source inc next, step word s (t, .cloneMany source inc) = .ok next →
        ∃ borrow kind count, s.view source = some (borrow, kind) ∧
          next.heap.status borrow.p = .counted count ∧
            count ≤ maxRefcount word := by
  obtain ⟨sound, within⟩ := sound_of_few few run
  refine ⟨fun p count counted => ⟨within p count counted, ?_, ?_⟩, ?_⟩
  · exact within.roomy few p count counted
  · exact (sound.owners_of_counted counted).symm
  · exact fun _ _ _ _ => cloneMany_spec

/-- Two threads are past the limit of a 64-bit machine. -/
theorem count_never_wraps_witness :
    ∃ s : Sys 4 Nat Unit, s.heap.status 0 = .counted (2 ^ 63 + 2) ∧
      s.pastLimit .wide 0 = 2 ∧
        2 ^ 63 + 2 ≤ maxRefcount .wide + 1 + s.pastLimit .wide 0 :=
  have run := reaches_of_follow
    [(0, .new 7 ()), (0, .cloneMany (.handle 0) (2 ^ 63 - 2)),
      (0, .clone (.handle 0) .clone), (0, .advance),
      (1, .clone (.handle 0) .clone), (1, .advance),
      (2, .clone (.handle 0) .clone), (2, .advance)] rfl
  ⟨_, rfl, rfl, ((count_never_wraps .wide (by decide) run).1 0 _ rfl).1⟩

/-! ## A crowd that does wrap a count around -/

/-- `k` threads have incremented the count of one block and not checked it yet.
The block also has two handles and an iterator that reserves the rest. -/
def crowd (word : MachineWord) (N k : Nat) : Sys N Unit Unit where
  heap :=
    [{ count := (maxRefcount word + k) % word.modulus
       data := (), fate := .live, leaked := 0 }]
  handles :=
    ⟨[some (Pointer.handle ⟨0, ()⟩ .arc), some (Pointer.handle ⟨0, ()⟩ .arc)]⟩
  borrows := .empty
  iters := ⟨[some ⟨⟨0, 0⟩, (), maxRefcount word - 2⟩]⟩
  threads t :=
    if t.val < k then
      ⟨.cloned ⟨0, 0⟩ SharedForm.arc () ((maxRefcount word + t) % word.modulus), []⟩
    else ⟨.idle, []⟩
  log := []

theorem crowd_zero (first : 0 < N) (room : 1 < maxRefcount word) :
    Reaches (step word) Keeps (start N Unit Unit) (crowd word N 0) := by
  have width := word.modulus_eq
  have fits : ¬ word.modulus ≤ 1 + (maxRefcount word - 1) := by
    unfold maxRefcount at room ⊢
    omega
  have below : ¬ maxRefcount word < 1 + (maxRefcount word - 1) := by omega
  have sum : maxRefcount word % word.modulus = 1 + (maxRefcount word - 1) := by
    rw [Nat.mod_eq_of_lt] <;> unfold maxRefcount at * <;> omega
  have left : maxRefcount word - 1 ≠ 0 := by omega
  have made : Reaches (step word) Keeps (start N Unit Unit) _ :=
    Reaches.refl.tail (⟨0, first⟩, .new () ()) ⟨rfl, rfl⟩ rfl
  have reserved : Reaches (step word) Keeps (start N Unit Unit)
      { crowd word N 0 with
        handles := ⟨[some (Pointer.handle ⟨0, ()⟩ .arc)]⟩
        iters := ⟨[some ⟨⟨0, 0⟩, (), maxRefcount word - 1⟩]⟩ } := by
    refine made.tail (⟨0, first⟩, .cloneMany (.handle 0) (maxRefcount word - 1))
      ⟨rfl, rfl⟩ ?_
    simp [step, Sys.call, start, crowd, view, demandSome, Heap.fetchUpdate,
      Heap.access, Heap.allocate, cloneManyUpdate, fits, below, sum, Fate.isLive,
      SlotTable.insert, SlotTable.get?, SlotTable.empty, Pointer.handle,
      Handle.refKind, bind, Except.bind, pure, Except.pure]
  refine reserved.tail (⟨0, first⟩, .next 0) ⟨rfl, rfl⟩ ?_
  simp [step, Sys.call, crowd, demandSome, left, Nat.sub_sub, SlotTable.insert,
    SlotTable.get?, SlotTable.replace, Pointer.handle, bind, Except.bind, pure,
    Except.pure]

theorem crowd_succ {k : Nat} (inside : k < N) :
    Reaches (step word) Keeps (crowd word N k) (crowd word N (k + 1)) := by
  have started : Reaches (step word) Keeps (crowd word N k)
      { crowd word N k with
        threads := Function.update (crowd word N k).threads ⟨k, inside⟩
          ⟨.cloning ⟨0, 0⟩ SharedForm.arc (), []⟩ } := by
    refine Reaches.refl.tail (⟨k, inside⟩, .clone (.handle 0) .clone) ⟨rfl, rfl⟩ ?_
    simp [step, Sys.call, crowd, view, demandSome, RefKind.cloned, setOp,
      SlotTable.get?, Pointer.handle, Handle.refKind, bind, Except.bind, pure,
      Except.pure]
  refine started.tail (⟨k, inside⟩, .advance) ⟨rfl, rfl⟩ ?_
  simp only [step, Sys.advance, crowd, Function.update_self, Heap.fetchAdd,
    Heap.access, Fate.isLive, setOp, List.getElem?_cons_zero, if_true,
    List.set_cons_zero, Function.update_idem, bind, Except.bind, pure, Except.pure,
    Nat.mod_add_mod, Nat.add_assoc, Except.ok.injEq, Sys.mk.injEq, true_and, and_true]
  funext t
  by_cases here : t = ⟨k, inside⟩
  · subst here
    simp
  · have different : t.val ≠ k := fun same => here (Fin.ext same)
    rw [Function.update_of_ne here]
    by_cases before : t.val < k
    · rw [if_pos before, if_pos (by omega)]
    · rw [if_neg before, if_neg (by omega)]

/-- Any number of threads can be between their increment and their check. -/
theorem crowd_reached (room : 1 < maxRefcount word) (first : 0 < N) {k : Nat}
    (enough : k ≤ N) :
    Reaches (step word) Keeps (start N Unit Unit) (crowd word N k) := by
  induction k with
  | zero => exact crowd_zero first room
  | succ k ih => exact (ih (by omega)).trans (crowd_succ enough)

/-- `isize::MAX + 3` such threads: the count is 1 again. -/
def wrappedCrowd (word : MachineWord) (N : Nat) : Sys N Unit Unit :=
  { crowd word N (maxRefcount word + 3) with
    heap := [{ count := 1, data := (), fate := .live, leaked := 0 }] }

/-- A large enough crowd wraps the count around. -/
theorem wrappedCrowd_reached (room : 1 < maxRefcount word)
    (many : maxRefcount word + 3 ≤ N) :
    Reaches (step word) Keeps (start N Unit Unit) (wrappedCrowd word N) := by
  have width := word.modulus_eq
  have wraps : (maxRefcount word + (maxRefcount word + 3)) % word.modulus = 1 := by
    have sum : maxRefcount word + (maxRefcount word + 3) = 1 + word.modulus := by
      unfold maxRefcount
      omega
    have large : 1 < word.modulus := by omega
    rw [sum, Nat.add_mod_right, Nat.mod_eq_of_lt large]
  have same : crowd word N (maxRefcount word + 3) = wrappedCrowd word N := by
    simp only [wrappedCrowd, crowd, wraps]
  exact same ▸ crowd_reached room (by omega) many

/-- The crowd borrows the first handle only, so the second one is free. -/
theorem wrappedCrowd_free (word : MachineWord) (N : Nat) :
    (wrappedCrowd word N).free 1 = .ok (Pointer.handle ⟨0, ()⟩ .arc) := by
  refine free_eq_ok.mpr ⟨rfl, rfl, ?_⟩
  have threads : ¬ ∃ t, ((wrappedCrowd word N).threads t).borrows 1 = true := by
    rintro ⟨t, borrowed⟩
    simp only [wrappedCrowd, crowd] at borrowed
    split at borrowed <;> simp [Thread.borrows, Op.source?] at borrowed
  unfold Sys.borrowed
  rw [decide_eq_false threads]
  rfl

theorem wrappedCrowd_idle (word : MachineWord) {t : Fin N}
    (spare : maxRefcount word + 3 ≤ t) :
    (wrappedCrowd word N).threads t = ⟨.idle, []⟩ :=
  if_neg (Nat.not_lt.mpr spare)

end Sys

end BackdropArc
