import BackdropArc.RelaxedCoherence

/-!
# What is published before the memory ends

A drop releases everything its handle was used for, and whoever finds itself
alone, or counts down to zero, acquires it.  With these orderings every access
is known to a holder or published in the newest count, so an exclusive user
and the destructor come after all accesses by other threads.
-/

namespace BackdropArc.RelaxedMemory

open GuardedRuns ReleaseHistory

/-- The orderings that carry every use of the allocation to its last user. -/
structure Orderings.Sufficient (o : Orderings) : Prop where
  dropReleases : o.dropSub.releases = true
  dropAcquires : o.dropSub.acquires = true ∨ o.dropLoad.acquires = true
  countAcquires : o.count.acquires = true

theorem Orderings.sufficient_source : Orderings.source.Sufficient :=
  ⟨rfl, Or.inr rfl, rfl⟩

/-- The accesses that others must know of before they access the memory. -/
def Access.Exclusive (access : Access) : Prop :=
  access = .create ∨ access = .write

theorem getElem?_concat_cases {α : Type} {list : List α} {last found : α} {i : Nat}
    (stored : (list ++ [last])[i]? = some found) :
    list[i]? = some found ∨ i = list.length ∧ found = last := by
  by_cases before : i < list.length
  · rw [List.getElem?_append_left before] at stored
    exact Or.inl stored
  · have inside := (List.getElem?_eq_some_iff.mp stored).1
    simp only [List.length_append, List.length_singleton] at inside
    obtain rfl : i = list.length := by omega
    rw [List.getElem?_concat_length] at stored
    exact Or.inr ⟨rfl, (Option.some.inj stored).symm⟩

namespace Machine

variable {N : Nat} {word : MachineWord} {o : Orderings} {m next : Machine N}
  {t u : Fin N} {action : Action} {key k e : Nat} {holder : Holder}

/-- Every access made so far happened before `view`. -/
def KnowsAll (m : Machine N) (view : View Nat) : Prop :=
  ∀ ⦃e⦄, e < m.accesses.length → e ∈ view.past

/-- The accesses that exclude all others happened before `view`. -/
def KnowsExclusive (m : Machine N) (view : View Nat) : Prop :=
  ∀ ⦃e access⦄, m.accesses[e]? = some access → access.Exclusive → e ∈ view.past

/-- Somebody who is still to come after the access knows of it, or will. -/
def Covered (m : Machine N) (e : Nat) : Prop :=
  e ∈ m.count.newest.released.past ∨
    (∃ key holder, m.holders.get? key = some holder ∧ e ∈ holder.view.past) ∨
    (∃ t, m.stages t = .dropSlow ∧ e ∈ (m.knows t).past) ∨
    ∃ view, m.backdropped = some view ∧ e ∈ view.past

/-- What is known of the accesses made so far. -/
structure Published (o : Orderings) (m : Machine N) : Prop where
  known : ∀ {key holder}, m.holders.get? key = some holder →
    m.KnowsExclusive holder.owned
  covered : m.freed = false → m.leaked = 0 →
    ∀ {e}, e < m.accesses.length → m.Covered e
  unique : ∀ {key holder}, m.holders.get? key = some holder →
    holder.kind = .handle true → m.count.newest.released ≤ holder.view
  loading : ∀ {t}, m.stages t = .dropLoad →
    m.count.last ≤ (m.knows t).seen ∧ m.KnowsExclusive (m.knows t) ∧
      (o.dropLoad.acquires = true ∨ m.count.newest.released ≤ m.knows t)
  slow : ∀ {t}, m.stages t = .dropSlow → m.KnowsAll (m.knows t)
  given : ∀ {view}, m.backdropped = some view → m.KnowsAll view
  unfreed : m.freed = false → .free ∉ m.accesses

theorem KnowsAll.mono {v w : View Nat} (all : m.KnowsAll v) (le : v ≤ w) :
    m.KnowsAll w :=
  fun _ before => le.2 (all before)

theorem KnowsExclusive.mono {v w : View Nat} (all : m.KnowsExclusive v) (le : v ≤ w) :
    m.KnowsExclusive w :=
  fun _ _ found exclusive => le.2 (all found exclusive)

/-! ## Nothing refers to memory that is being given up -/

/-- Without references there are no holders. -/
theorem Sound.empty (sound : m.Sound word) (gone : m.references + m.leaked = 0) (k : Nat) :
    m.holders.get? k = none := by
  by_contra stored
  obtain ⟨holder, found⟩ := Option.ne_none_iff_exists'.mp stored
  have least := refs_le_references found
  cases kind : holder.kind with
  | handle | cloned =>
      simp only [Holder.refs, kind, Kind.refs] at least
      omega
  | iter orig arcsLeft =>
      have more := sound.borrowing.lt_references found kind
      omega

theorem Counting.claims_le_one (counting : m.Counting word) : m.claims ≤ 1 := by
  rw [counting.claimed]
  split <;> omega

theorem Counting.total_of_claims (counting : m.Counting word) (claimed : m.claims ≠ 0) :
    m.references + m.leaked = 0 := by
  by_contra referenced
  exact claimed (counting.claimed.trans (if_neg referenced))

theorem claims_eq (m : Machine N) :
    m.claims = (∑ t, (m.stages t).ending) + (if m.backdropped.isSome then 1 else 0) +
      if m.freed then 1 else 0 :=
  rfl

theorem ending_le_sum (m : Machine N) (t : Fin N) :
    (m.stages t).ending ≤ ∑ u, (m.stages u).ending :=
  Finset.single_le_sum (f := fun u => (m.stages u).ending)
    (fun _ _ => Nat.zero_le _) (Finset.mem_univ t)

/-- A thread that has the memory is the only party that does. -/
theorem Sound.of_ending (sound : m.Sound word) (ending : (m.stages t).ending = 1) :
    m.references + m.leaked = 0 ∧ m.freed = false ∧ m.backdropped = none := by
  have atMost := sound.counting.claims_le_one
  have own := ending_le_sum m t
  have parts := claims_eq m
  refine ⟨sound.counting.total_of_claims (by omega), ?_, ?_⟩
  · by_contra freed
    rw [if_pos (by simpa using freed : m.freed = true)] at parts
    omega
  · by_contra given
    rw [if_pos (Option.isSome_iff_ne_none.mpr given)] at parts
    omega

theorem ending_le_claims (m : Machine N) (t : Fin N) : (m.stages t).ending ≤ m.claims := by
  have own := ending_le_sum m t
  have parts := claims_eq m
  omega

theorem Sound.of_given (sound : m.Sound word) {view : View Nat}
    (given : m.backdropped = some view) :
    m.references + m.leaked = 0 ∧ m.freed = false ∧ ∀ t, (m.stages t).ending = 0 := by
  have atMost := sound.counting.claims_le_one
  have parts := claims_eq m
  rw [given, Option.isSome_some, if_pos rfl] at parts
  refine ⟨sound.counting.total_of_claims (by omega), ?_, ?_⟩
  · by_contra freed
    rw [if_pos (by simpa using freed : m.freed = true)] at parts
    omega
  · intro t
    have own := ending_le_sum m t
    omega

theorem Sound.alive (sound : m.Sound word) (found : m.holders.get? key = some holder) :
    m.freed = false := by
  by_contra freed
  have parts := claims_eq m
  rw [if_pos (by simpa using freed : m.freed = true)] at parts
  rw [sound.empty (sound.counting.total_of_claims (by omega)) key] at found
  cases found

/-- Two threads that have the memory are the same one. -/
theorem Sound.ending_unique (sound : m.Sound word) (first : (m.stages t).ending = 1)
    (second : (m.stages u).ending = 1) : t = u := by
  by_contra different
  have atMost := sound.counting.claims_le_one
  have both := Finset.add_le_sum (f := fun w => (m.stages w).ending)
    (fun _ _ => Nat.zero_le _) (Finset.mem_univ t) (Finset.mem_univ u) different
  have parts := claims_eq m
  simp only [first, second] at both
  omega

/-- A handle that is held alone is the only holder. -/
theorem Sound.eq_of_unique (sound : m.Sound word) (found : m.holders.get? key = some holder)
    {other : Holder} (total : m.references + m.leaked = 1) {unique : Bool}
    (kind : holder.kind = .handle unique) (unshared : ¬ m.Borrowed key)
    (found' : m.holders.get? k = some other) : k = key := by
  have owns := refs_of_handle kind
  by_cases none : other.refs = 0
  · cases kind' : other.kind with
    | handle | cloned => simp [Holder.refs, kind', Kind.refs] at none
    | iter orig arcsLeft =>
        obtain ⟨lender, at_orig, handle⟩ := sound.borrowing.lender found' kind'
        have same := eq_of_references_le (k := orig) found at_orig (by
          rw [refs_of_handle handle]
          omega)
        exact absurd (same ▸ borrowed_of_iter found' kind') unshared
  · exact eq_of_references_le found found' (by omega)

/-- The steps that need no holder. -/
inductive Quiet (o : Orderings) (m : Machine N) (t : Fin N) : Machine N → Prop
  | post (idle : m.stages t = .idle) :
      Quiet o m t { m with posted := m.posted ++ [m.knows t] }
  | receive {view : View Nat} (idle : m.stages t = .idle) :
      Quiet o m t { m with knows := Function.update m.knows t (m.knows t ⊔ view) }
  | destroy {view : View Nat} (given : m.backdropped = some view) :
      Quiet o m t { m.record t .free with backdropped := none, freed := true }
  | dropLoad {i : Nat} (stage : m.stages t = .dropLoad)
      (readable : m.count.Readable (m.knows t) i) :
      Quiet o m t (((m.record t .count).load t o.dropLoad i).setStage t .dropSlow)
  | dropSlow (stage : m.stages t = .dropSlow) :
      Quiet o m t { m.setStage t .idle with backdropped := some (m.knows t) }

theorem Moved.quiet (moved : Moved word o m t action next)
    (borrowing : Borrowing m.holders m.stages m.knows)
    (empty : ∀ key, m.holders.get? key = none) : Quiet o m t next := by
  have absent {key : Nat} {holder : Holder} (found : m.holders.get? key = some holder) :
      False := by
    rw [empty] at found
    cases found
  cases moved with
  | post idle => exact .post idle
  | receive idle => exact .receive idle
  | destroy _ given => exact .destroy given
  | dropLoad stage readable => exact .dropLoad stage readable
  | dropSlow stage => exact .dropSlow stage
  | read shares | clone shares | cloneManyRetry shares | cloneMany shares
  | count shares => exact (absent shares.found).elim
  | write takes | nextNone takes | next takes | dropIterRetry takes
  | dropIterNone takes | dropIter takes | forgetIter takes | tryUnique takes
  | shareable takes | drop takes | dropLast takes | forget takes
  | intoInner takes => exact (absent takes.found).elim
  | cloned stage =>
      obtain ⟨_, found, _⟩ := borrowing.unit stage
      exact (absent found).elim

/-! ## Each part of the invariant -/

/-- A step makes at most one access, which its thread then knows of. -/
theorem Moved.accesses_cases (moved : Moved word o m t action next) :
    next.accesses = m.accesses ∨
      ∃ access, next.accesses = m.accesses ++ [access] ∧ m.freed = false ∧
        m.accesses.length ∈ (next.knows t).past ∧
        (access = .free → next.freed = true) ∧
        (access.Exclusive → ∃ key holder, action = .write key ∧ m.Takes t key holder ∧
          holder.kind = .handle true ∧
          next = (m.record t .write).keep t key (.handle true)) := by
  have marked (access : Access) : m.accesses.length ∈ ((m.record t access).knows t).past := by
    rw [knows_record]
    exact View.mem_after _ _
  have loaded (ordering : MemoryOrdering) (i : Nat) :=
    (knows_le_load (m := m.record t .count) (t := t) ordering i t).2 (marked .count)
  have modified (ordering : MemoryOrdering) :=
    (knows_le_modify (m := m.record t .count) (t := t) ordering id t).2 (marked .count)
  have plain {access : Access} {final : Prop} (shared : access ≠ .create ∧ access ≠ .write)
      (exclusive : access.Exclusive) : final :=
    exclusive.elim (fun same => absurd same shared.1) fun same => absurd same shared.2
  cases moved with
  | post | receive | nextNone | next | dropIterNone | forgetIter | shareable | forget |
      cloned | dropSlow => exact Or.inl rfl
  | read shares kind performs =>
      exact Or.inr ⟨.read, rfl, performs.alive, marked .read, nofun, plain (by simp)⟩
  | write takes kind performs =>
      exact Or.inr ⟨.write, rfl, performs.alive, marked .write, nofun,
        fun _ => ⟨_, _, rfl, takes, kind, rfl⟩⟩
  | cloneManyRetry shares kind readable performs | count shares kind readable performs =>
      exact Or.inr ⟨.count, rfl, performs.alive, loaded _ _, nofun, plain (by simp)⟩
  | dropIterRetry takes kind readable performs | tryUnique takes kind readable performs =>
      exact Or.inr ⟨.count, rfl, performs.alive, loaded _ _, nofun, plain (by simp)⟩
  | dropLoad stage readable performs =>
      exact Or.inr ⟨.count, rfl, performs.alive, loaded _ _, nofun, plain (by simp)⟩
  | clone shares kind performs | cloneMany shares kind performs =>
      exact Or.inr ⟨.count, rfl, performs.alive, modified _, nofun, plain (by simp)⟩
  | drop takes kind performs | dropLast takes kind performs =>
      exact Or.inr ⟨.count, rfl, performs.alive, modified _, nofun, plain (by simp)⟩
  | dropIter takes kind lender some performs =>
      exact Or.inr ⟨.count, rfl, performs.alive, modified _, nofun, plain (by simp)⟩
  | intoInner takes kind performs | destroy idle given view_le performs =>
      exact Or.inr ⟨.free, rfl, performs.alive, marked .free, fun _ => rfl, plain (by simp)⟩

theorem Moved.alive (moved : Moved word o m t action next) (alive : next.freed = false) :
    m.freed = false := by
  cases moved with
  | intoInner | destroy => cases alive
  | post | receive | read | write | clone | cloneManyRetry | cloneMany | nextNone | next |
      dropIterRetry | dropIterNone | dropIter | forgetIter | count | tryUnique |
      shareable | drop | dropLast | forget | cloned | dropLoad | dropSlow => exact alive

theorem Moved.leaked_le (moved : Moved word o m t action next) :
    m.leaked ≤ next.leaked := by
  cases moved with
  | forgetIter | forget => exact Nat.le_add_right _ _
  | post | receive | read | write | clone | cloneManyRetry | cloneMany | nextNone | next |
      dropIterRetry | dropIterNone | dropIter | count | tryUnique | shareable | drop |
      dropLast | intoInner | destroy | cloned | dropLoad | dropSlow => exact Nat.le_refl _

theorem Moved.released_le (moved : Moved word o m t action next) :
    m.count.newest.released ≤ next.count.newest.released := by
  rcases moved.count_cases with same | ⟨_, _, _, _, _, changed⟩
  · rw [same]
  · rw [changed]
    exact Location.released_le_modify

/-- Nothing is unique right after the count has changed. -/
theorem Moved.not_unique_of_changed (moved : Moved word o m t action next)
    (sound : m.Sound word) (changed : next.count.last ≠ m.count.last)
    (found : next.holders.get? k = some holder) : holder.kind ≠ .handle true := by
  have counting := sound.counting
  cases moved with
  | post | receive | read | write | cloneManyRetry | nextNone | next | dropIterRetry |
      dropIterNone | forgetIter | count | tryUnique | shareable | forget | intoInner |
      destroy | cloned | dropLoad | dropSlow => exact absurd rfl changed
  | clone shares kind =>
      exact counting.not_unique_of_shared shares.found kind (by simp) found
  | cloneMany shares kind =>
      exact counting.not_unique_of_shared shares.found kind (by simp) found
  | dropIter takes kind lender some =>
      exact sound.not_unique_of_close takes.found kind lender
        (by rwa [refs_of_iter kind]) found
  | drop takes kind | dropLast takes kind =>
      exact counting.not_unique_of_erase takes.found (by simp [refs_of_handle kind]) found

theorem Moved.known (moved : Moved word o m t action next) (sound : m.Sound word)
    (published : m.Published o) (found : next.holders.get? k = some holder) :
    next.KnowsExclusive holder.owned := by
  obtain ⟨key, before, at_key, descends⟩ :=
    moved.rearranged.origin sound.borrowing (moved.knows_le t) found
  have old : m.KnowsExclusive holder.owned :=
    (published.known at_key).mono descends.owned_le
  intro e access made exclusive
  rcases moved.accesses_cases with same | ⟨latest, appended, _, marked, _, wrote⟩
  · rw [same] at made
    exact old made exclusive
  rw [appended] at made
  obtain before | ⟨rfl, rfl⟩ := getElem?_concat_cases made
  · exact old before exclusive
  -- the data was written, so the writer's handle is the only holder
  obtain ⟨key', writer, _, takes, kind, rfl⟩ := wrote exclusive
  rw [get?_keep (m := m.record t .write) takes.found] at found
  split at found
  · cases found
    exact marked
  · next different =>
      have total := sound.counting.unique takes.found kind
      exact absurd (sound.eq_of_unique takes.found total kind takes.free found) different

theorem Moved.unique (moved : Moved word o m t action next) (sufficient : o.Sufficient)
    (sound : m.Sound word) (published : m.Published o)
    (found : next.holders.get? k = some holder) (kind : holder.kind = .handle true) :
    next.count.newest.released ≤ holder.view := by
  have same : next.count = m.count := by
    rcases moved.count_cases with same | ⟨_, _, _, _, _, changed⟩
    · exact same
    · refine absurd kind (moved.not_unique_of_changed sound ?_ found)
      simp [changed]
  obtain ⟨before, at_k, ⟨unique, view_le⟩ | ⟨handle, takes, tested, knows_le⟩⟩ :=
    moved.rearranged.unique_origin sound.borrowing (moved.knows_le t) found kind
  · rw [same]
    exact (published.unique at_k unique).trans view_le
  · obtain ⟨_, i, readable, one, acquired⟩ := tested
    obtain rfl := sound.newest_of_one takes handle readable one
    rw [same]
    exact (acquired sufficient.countAcquires).trans knows_le

theorem Moved.unfreed (moved : Moved word o m t action next) (published : m.Published o)
    (alive : next.freed = false) : .free ∉ next.accesses := by
  have old := published.unfreed (moved.alive alive)
  rcases moved.accesses_cases with same | ⟨latest, appended, _, _, frees, _⟩
  · rwa [same]
  · rw [appended, List.mem_append, List.mem_singleton]
    rintro (before | now)
    · exact old before
    · simp [frees now.symm] at alive

/-! ## The end of the memory -/

theorem Quiet.knowsAll_of_dropSlow (sound : m.Sound word) (published : m.Published o)
    {i : Nat} (stage : m.stages t = .dropLoad)
    (readable : m.count.Readable (m.knows t) i) :
    KnowsAll (((m.record t .count).load t o.dropLoad i).setStage t .dropSlow)
      (((m.record t .count).load t o.dropLoad i).knows t) := by
  have ending : (m.stages t).ending = 1 := by rw [stage]; rfl
  obtain ⟨gone, alive, none⟩ := sound.of_ending ending
  obtain ⟨seen, _, acquires⟩ := published.loading stage
  obtain rfl : i = m.count.last := Nat.le_antisymm readable.2 (seen.trans readable.1)
  have grows := (knows_le_record (m := m) (t := t) .count t).trans
    (knows_le_load (t := t) o.dropLoad m.count.last t)
  have learned : m.count.newest.released ≤
      ((m.record t .count).load t o.dropLoad m.count.last).knows t := by
    rcases acquires with acquires | known
    · rw [knows_load]
      exact Location.released_le_learn acquires
    · exact known.trans grows
  intro e inside
  have inside : e < (m.accesses ++ [Access.count]).length := inside
  simp only [List.length_append, List.length_singleton] at inside
  by_cases new : e = m.accesses.length
  · subst new
    apply (knows_le_load o.dropLoad m.count.last t).2
    rw [knows_record]
    exact View.mem_after _ _
  · rcases published.covered alive (by omega) (by omega : e < m.accesses.length) with
      released | ⟨key, holder, found, _⟩ | ⟨u, slow, _⟩ | ⟨view, given, _⟩
    · exact learned.2 released
    · rw [sound.empty gone] at found
      cases found
    · have same := sound.ending_unique ending (by rw [slow]; rfl : (m.stages u).ending = 1)
      rw [← same, stage] at slow
      cases slow
    · rw [none] at given
      cases given

/-- While something refers to the memory, a step only starts its end by
releasing the last reference. -/
theorem Moved.busy (moved : Moved word o m t action next) (unclaimed : m.claims = 0) :
    next.backdropped = m.backdropped ∧ ∀ u, next.stages u ≠ .dropSlow ∧
      (next.stages u = .dropLoad → u = t ∧ ∃ key holder, m.Takes t key holder ∧
        next = (m.dropCounted word o t key).setStage t .dropLoad) := by
  have ends (u : Fin N) : (m.stages u).ending = 0 :=
    Nat.eq_zero_of_le_zero (unclaimed ▸ ending_le_claims m u)
  have calm {stages : Fin N → Stage} (same : ∀ u, stages u = m.stages u ∨
      (stages u).ending = 0) (u : Fin N) : stages u ≠ .dropSlow ∧ stages u ≠ .dropLoad := by
    have zero : (stages u).ending = 0 := (same u).elim (fun kept => kept ▸ ends u) id
    constructor <;> intro stage <;> simp [stage, Stage.ending] at zero
  have still {final : Fin N → Prop} (u : Fin N) :
      m.stages u ≠ .dropSlow ∧ (m.stages u = .dropLoad → final u) :=
    ⟨(calm (fun _ => Or.inl rfl) u).1,
      fun stage => absurd stage (calm (fun _ => Or.inl rfl) u).2⟩
  have updated {stage : Stage} {final : Fin N → Prop} (harmless : stage.ending = 0)
      (u : Fin N) : Function.update m.stages t stage u ≠ .dropSlow ∧
        (Function.update m.stages t stage u = .dropLoad → final u) := by
    have cases (w : Fin N) : Function.update m.stages t stage w = m.stages w ∨
        (Function.update m.stages t stage w).ending = 0 := by
      by_cases here : w = t
      · subst here
        exact Or.inr (by simpa using harmless)
      · exact Or.inl (Function.update_of_ne here _ _)
    exact ⟨(calm cases u).1, fun same => absurd same (calm cases u).2⟩
  cases moved with
  | post | receive | read | write | cloneManyRetry | cloneMany | nextNone | next |
      dropIterRetry | dropIterNone | dropIter | forgetIter | count | tryUnique |
      shareable | drop | forget | intoInner => exact ⟨rfl, still⟩
  | clone | cloned => exact ⟨rfl, updated rfl⟩
  | dropLast takes =>
      refine ⟨rfl, fun u => ?_⟩
      by_cases here : u = t
      · subst here
        exact ⟨by simp [setStage], fun _ => ⟨rfl, _, _, takes, rfl⟩⟩
      · have kept : Function.update m.stages t .dropLoad u = m.stages u :=
          Function.update_of_ne here _ _
        change Function.update m.stages t .dropLoad u ≠ _ ∧
          (Function.update m.stages t .dropLoad u = _ → _)
        rw [kept]
        exact ⟨(calm (fun _ => Or.inl rfl) u).1,
          fun stage => absurd stage (calm (fun _ => Or.inl rfl) u).2⟩
  | destroy _ given =>
      have parts := claims_eq m
      rw [given, Option.isSome_some, if_pos rfl] at parts
      omega
  | dropLoad stage | dropSlow stage =>
      have zero := ends t
      simp [stage, Stage.ending] at zero

/-- The step that releases the last reference publishes what its thread knows,
or learns what was published. -/
theorem Published.loading_dropLast (published : m.Published o) (sufficient : o.Sufficient)
    (takes : m.Takes t key holder) :
    (m.dropCounted word o t key).count.last ≤ ((m.dropCounted word o t key).knows t).seen ∧
      (m.dropCounted word o t key).KnowsExclusive ((m.dropCounted word o t key).knows t) ∧
      (o.dropLoad.acquires = true ∨
        (m.dropCounted word o t key).count.newest.released ≤
          (m.dropCounted word o t key).knows t) := by
  have same : (m.dropCounted word o t key).knows t =
      m.count.learnWrite o.dropSub ((m.record t .count).knows t) :=
    knows_modify (m.record t .count) t o.dropSub id
  have grows : m.knows t ≤ (m.dropCounted word o t key).knows t :=
    (knows_le_record .count t).trans (knows_le_modify (t := t) o.dropSub id t)
  refine ⟨?_, ?_, ?_⟩
  · rw [same]
    exact Location.last_lt_seen_learnWrite
  · intro e access made exclusive
    rcases getElem?_concat_cases made with old | ⟨_, rfl⟩
    · exact grows.2 (takes.view_le.2
        ((le_sup_left : holder.owned ≤ holder.view).2
          (published.known takes.found old exclusive)))
    · simp [Access.Exclusive] at exclusive
  · rcases sufficient.dropAcquires with acquires | acquires
    · right
      rw [same]
      exact Location.modify_le_learnWrite acquires
    · exact Or.inl acquires

theorem Moved.loading (moved : Moved word o m t action next) (sufficient : o.Sufficient)
    (sound : m.Sound word) (published : m.Published o) (stage : next.stages u = .dropLoad) :
    next.count.last ≤ (next.knows u).seen ∧ next.KnowsExclusive (next.knows u) ∧
      (o.dropLoad.acquires = true ∨ next.count.newest.released ≤ next.knows u) := by
  by_cases unclaimed : m.claims = 0
  · obtain ⟨rfl, key, holder, takes, rfl⟩ := ((moved.busy unclaimed).2 u).2 stage
    exact published.loading_dropLast sufficient takes
  -- somebody has the memory: the thread that is about to load, and only it
  have gone := sound.counting.total_of_claims unclaimed
  have grows := moved.knows_le u
  cases moved.quiet sound.borrowing (sound.empty gone) with
  | post | receive =>
      obtain ⟨seen, known, acquires⟩ := published.loading stage
      exact ⟨seen.trans grows.1, known.mono grows,
        acquires.imp_right fun released => released.trans grows⟩
  | destroy given =>
      have none := (sound.of_given given).2.2 u
      have same : m.stages u = .dropLoad := stage
      simp [same, Stage.ending] at none
  | dropLoad here | dropSlow here =>
      have ending : (m.stages t).ending = 1 := by rw [here]; rfl
      by_cases same : u = t
      · subst same
        simp [setStage] at stage
      · have there : m.stages u = .dropLoad := by
          simpa [setStage, load, record, Function.update_of_ne same] using stage
        exact absurd (sound.ending_unique (by rw [there]; rfl) ending) same

theorem Moved.slow (moved : Moved word o m t action next) (sound : m.Sound word)
    (published : m.Published o) (stage : next.stages u = .dropSlow) :
    next.KnowsAll (next.knows u) := by
  by_cases unclaimed : m.claims = 0
  · exact absurd stage ((moved.busy unclaimed).2 u).1
  have gone := sound.counting.total_of_claims unclaimed
  have grows := moved.knows_le u
  cases moved.quiet sound.borrowing (sound.empty gone) with
  | post | receive => exact KnowsAll.mono (m := m) (published.slow stage) grows
  | destroy given =>
      have none := (sound.of_given given).2.2 u
      have same : m.stages u = .dropSlow := stage
      simp [same, Stage.ending] at none
  | dropLoad here readable =>
      have ending : (m.stages t).ending = 1 := by rw [here]; rfl
      by_cases same : u = t
      · subst same
        exact Quiet.knowsAll_of_dropSlow sound published here readable
      · have there : m.stages u = .dropSlow := by
          simpa [setStage, load, record, Function.update_of_ne same] using stage
        exact absurd (sound.ending_unique (by rw [there]; rfl) ending) same
  | dropSlow here =>
      have ending : (m.stages t).ending = 1 := by rw [here]; rfl
      by_cases same : u = t
      · subst same
        simp [setStage] at stage
      · have there : m.stages u = .dropSlow := by
          simpa [setStage, Function.update_of_ne same] using stage
        exact absurd (sound.ending_unique (by rw [there]; rfl) ending) same

theorem Moved.given (moved : Moved word o m t action next) (sound : m.Sound word)
    (published : m.Published o) {view : View Nat} (given : next.backdropped = some view) :
    next.KnowsAll view := by
  by_cases unclaimed : m.claims = 0
  · have before : m.backdropped = some view :=
      (moved.busy unclaimed).1.symm.trans given
    have parts := claims_eq m
    rw [before, Option.isSome_some, if_pos rfl] at parts
    omega
  have gone := sound.counting.total_of_claims unclaimed
  cases moved.quiet sound.borrowing (sound.empty gone) with
  | post | receive => exact published.given given
  | destroy => cases given
  | dropLoad here =>
      have none := (sound.of_ending (by rw [here]; rfl)).2.2
      exact absurd (none.symm.trans given) nofun
  | dropSlow here =>
      cases given
      exact published.slow here

/-! ## No access is forgotten -/

/-- Some holder knows at least `view`. -/
def Held (holders : SlotTable Holder) (view : View Nat) : Prop :=
  ∃ key holder, holders.get? key = some holder ∧ view ≤ holder.view

section Held

variable {holders : SlotTable Holder} {view v : View Nat} {old entry other : Holder}

theorem Held.insert (held : Held holders view) : Held (holders.insert entry) view := by
  obtain ⟨key, holder, found, le⟩ := held
  exact ⟨key, holder, SlotTable.get?_insert_of_found found _, le⟩

theorem held_insert (holders : SlotTable Holder) (kind : Kind) (v : View Nat) :
    Held (holders.insert ⟨kind, v, ⊥⟩) v :=
  ⟨_, _, SlotTable.get?_insert_nextKey _ _, (Holder.view_own kind v).ge⟩

theorem held_replace (found : holders.get? key = some old) (le : view ≤ entry.view) :
    Held (holders.replace key entry) view :=
  ⟨key, entry, by rw [SlotTable.get?_replace found, if_pos rfl], le⟩

/-- Replacing a holder by one that knows more loses nothing. -/
theorem held_of_replace (found : holders.get? key = some old)
    (le : old.view ≤ entry.view) (stored : holders.get? k = some other) :
    Held (holders.replace key entry) other.view := by
  by_cases here : k = key
  · rw [here, found] at stored
    cases stored
    exact held_replace found le
  · exact ⟨k, other, by rw [SlotTable.get?_replace found, if_neg here, stored], le_rfl⟩

theorem held_of_erase (different : k ≠ key) (stored : holders.get? k = some other)
    (le : view ≤ other.view) : Held (holders.erase key) view :=
  ⟨k, other, by rw [SlotTable.get?_erase, if_neg different, stored], le⟩

/-- A closed clone iterator leaves what it knew to its handle. -/
theorem held_of_close (found : holders.get? key = some old) (known : old.view ≤ v)
    {orig : Nat} {source : Holder} (lender : holders.get? orig = some source)
    (different : key ≠ orig) (stored : holders.get? k = some other) :
    Held ((holders.replace orig (source.use v)).erase key) other.view := by
  have lent : (holders.replace orig (source.use v)).get? orig = some (source.use v) := by
    rw [SlotTable.get?_replace lender, if_pos rfl]
  by_cases closed : k = key
  · rw [closed, found] at stored
    cases stored
    exact held_of_erase different.symm lent (known.trans (Holder.le_use source v))
  by_cases here : k = orig
  · rw [here, lender] at stored
    rw [← Option.some.inj stored]
    exact held_of_erase different.symm lent (Holder.view_le_use source v)
  · have kept : (holders.replace orig (source.use v)).get? k = some other := by
      rw [SlotTable.get?_replace lender, if_neg here, stored]
    exact held_of_erase closed kept le_rfl

theorem held_close {orig : Nat} {source : Holder}
    (lender : holders.get? orig = some source) (different : key ≠ orig) :
    Held ((holders.replace orig (source.use v)).erase key) v := by
  have lent : (holders.replace orig (source.use v)).get? orig = some (source.use v) := by
    rw [SlotTable.get?_replace lender, if_pos rfl]
  exact held_of_erase different.symm lent (Holder.le_use source v)

end Held

/-- A party that is still to come knows at least `view`. -/
def Keeps (m : Machine N) (view : View Nat) : Prop :=
  view ≤ m.count.newest.released ∨ Held m.holders view ∨
    ∃ t, m.stages t = .dropSlow ∧ view ≤ m.knows t

theorem Keeps.covered {view : View Nat} (keeps : m.Keeps view) (known : e ∈ view.past) :
    m.Covered e := by
  rcases keeps with released | ⟨key, holder, found, le⟩ | ⟨t, slow, le⟩
  · exact Or.inl (released.2 known)
  · exact Or.inr (Or.inl ⟨key, holder, found, le.2 known⟩)
  · exact Or.inr (Or.inr (Or.inl ⟨t, slow, le.2 known⟩))

/-- A drop publishes everything its thread knows. -/
theorem knows_le_released_drop (word : MachineWord) (m : Machine N) (t : Fin N) (key : Nat)
    (sufficient : o.Sufficient) :
    (m.dropCounted word o t key).knows t ≤
      (m.dropCounted word o t key).count.newest.released := by
  have same : (m.dropCounted word o t key).knows t =
      m.count.learnWrite o.dropSub ((m.record t .count).knows t) :=
    knows_modify (m.record t .count) t o.dropSub id
  rw [same]
  exact Location.learnWrite_le_modify sufficient.dropReleases

/-- What a holder knew is not lost by a step, unless its reference is. -/
theorem Moved.carries (moved : Moved word o m t action next) (sufficient : o.Sufficient)
    (sound : m.Sound word) (alive : next.freed = false) (counted : next.leaked = 0)
    (found : m.holders.get? key = some holder) : next.Keeps holder.view := by
  have grows := moved.knows_le t
  have held (kept : Held next.holders holder.view) : next.Keeps holder.view :=
    Or.inr (Or.inl kept)
  have owned {kind : Kind} {old : Holder} (view_le : old.view ≤ m.knows t) :
      old.view ≤ (Holder.mk kind (next.knows t) ⊥).view := by
    rw [Holder.view_own]
    exact view_le.trans grows
  have erased {key' : Nat} {old : Holder} (stored : m.holders.get? key' = some old)
      (released : old.view ≤ next.count.newest.released)
      (table : next.holders = m.holders.erase key') : next.Keeps holder.view := by
    by_cases here : key = key'
    · rw [here, stored] at found
      cases found
      exact Or.inl released
    · exact held (table ▸ held_of_erase here found le_rfl)
  cases moved with
  | post | receive | nextNone | destroy | dropLoad | dropSlow =>
      exact held ⟨key, holder, found, le_rfl⟩
  | read shares | cloneManyRetry shares | count shares =>
      exact held (held_of_replace shares.found (Holder.view_le_use _ _) found)
  | write takes | dropIterRetry takes | tryUnique takes | shareable takes =>
      exact held (held_of_replace takes.found (owned takes.view_le) found)
  | clone shares | cloneMany shares =>
      exact held (held_of_replace shares.found (Holder.view_le_use _ _) found).insert
  | next takes =>
      exact held (held_of_replace takes.found (owned takes.view_le) found).insert
  | cloned stage =>
      obtain ⟨unit, stored, _, view_le⟩ := sound.borrowing.unit stage
      exact held (held_of_replace stored (owned view_le) found)
  | dropIterNone takes kind lender | forgetIter takes kind lender =>
      exact held (held_of_close takes.found (takes.view_le.trans grows) lender
        (sound.borrowing.ne_lender takes.found kind) found)
  | dropIter takes kind lender =>
      exact held (held_of_close takes.found (takes.view_le.trans grows) lender
        (sound.borrowing.ne_lender takes.found kind) found)
  | @drop key' _ _ takes | @dropLast key' _ _ takes =>
      refine erased takes.found ((takes.view_le.trans grows).trans ?_) rfl
      exact knows_le_released_drop word m t key' sufficient
  | forget => cases counted
  | intoInner => cases alive

/-- The thread of a step that accesses the memory passes on what it knows. -/
theorem Moved.keeps (moved : Moved word o m t action next) (sufficient : o.Sufficient)
    (sound : m.Sound word) (alive : next.freed = false)
    (accessed : next.accesses ≠ m.accesses) : next.Keeps (next.knows t) := by
  have held (kept : Held next.holders (next.knows t)) : next.Keeps (next.knows t) :=
    Or.inr (Or.inl kept)
  cases moved with
  | post | receive | nextNone | next | dropIterNone | forgetIter | shareable | forget |
      cloned | dropSlow => exact absurd rfl accessed
  | intoInner | destroy => cases alive
  | read shares | cloneManyRetry shares | count shares =>
      exact held (held_replace shares.found (Holder.le_use _ _))
  | write takes | dropIterRetry takes | tryUnique takes =>
      exact held (held_replace takes.found (Holder.view_own _ _).ge)
  | clone | cloneMany => exact held (held_insert _ _ _)
  | dropIter takes kind lender =>
      exact held (held_close lender (sound.borrowing.ne_lender takes.found kind))
  | @drop key | @dropLast key =>
      exact Or.inl (knows_le_released_drop word m t key sufficient)
  | dropLoad => exact Or.inr (Or.inr ⟨t, Function.update_self _ _ _, le_rfl⟩)

theorem Moved.covered (moved : Moved word o m t action next) (sufficient : o.Sufficient)
    (sound : m.Sound word) (published : m.Published o) (alive : next.freed = false)
    (counted : next.leaked = 0) (inside : e < next.accesses.length) : next.Covered e := by
  have old (before : e < m.accesses.length) : next.Covered e := by
    have kept : m.leaked = 0 := Nat.eq_zero_of_le_zero (counted ▸ moved.leaked_le)
    rcases published.covered (moved.alive alive) kept before with
      released | ⟨key, holder, found, known⟩ | ⟨u, slow, known⟩ | ⟨view, given, known⟩
    · exact Or.inl (moved.released_le.2 released)
    · exact (moved.carries sufficient sound alive counted found).covered known
    · have gone := (sound.of_ending (by rw [slow]; rfl)).1
      cases moved.quiet sound.borrowing (sound.empty gone) with
      | post | receive =>
          exact Or.inr (Or.inr (Or.inl ⟨u, slow, (moved.knows_le u).2 known⟩))
      | destroy => cases alive
      | dropLoad here =>
          obtain rfl := sound.ending_unique (by rw [here]; rfl) (by rw [slow]; rfl)
          exact absurd (here.symm.trans slow) (by simp)
      | dropSlow here =>
          obtain rfl := sound.ending_unique (by rw [here]; rfl) (by rw [slow]; rfl)
          exact Or.inr (Or.inr (Or.inr ⟨_, rfl, known⟩))
    · obtain ⟨gone, _, none⟩ := sound.of_given given
      cases moved.quiet sound.borrowing (sound.empty gone) with
      | post | receive => exact Or.inr (Or.inr (Or.inr ⟨view, given, known⟩))
      | destroy => cases alive
      | dropLoad here | dropSlow here =>
          have zero := none t
          simp [here, Stage.ending] at zero
  rcases moved.accesses_cases with same | ⟨latest, appended, _, marked, _⟩
  · exact old (same ▸ inside)
  · rw [appended, List.length_append, List.length_singleton] at inside
    by_cases before : e < m.accesses.length
    · exact old before
    · obtain rfl : e = m.accesses.length := by omega
      refine (moved.keeps sufficient sound alive ?_).covered marked
      simp [appended]

/-- Every step keeps what is published. -/
theorem Moved.published (moved : Moved word o m t action next) (sufficient : o.Sufficient)
    (sound : m.Sound word) (published : m.Published o) : next.Published o where
  known found := moved.known sound published found
  covered alive counted _ inside :=
    moved.covered sufficient sound published alive counted inside
  unique found kind := moved.unique sufficient sound published found kind
  loading stage := moved.loading sufficient sound published stage
  slow stage := moved.slow sound published stage
  given given := moved.given sound published given
  unfreed alive := moved.unfreed published alive

theorem published_start (o : Orderings) (creator : Fin N) (unique : Bool) :
    (start creator unique).Published o := by
  constructor
  · intro key holder found e access made _
    rw [get?_start found]
    have first : e = 0 := by
      have inside := (List.getElem?_eq_some_iff.mp made).1
      simpa [start] using inside
    simp [first]
  · intro _ _ e inside
    refine Or.inr (Or.inl ⟨0, ⟨.handle unique, ⟨0, {0}⟩, ⊥⟩, rfl, ?_⟩)
    have first : e = 0 := by simpa [start] using inside
    simp [first, Holder.view]
  · intro key holder found _
    exact bot_le
  · intro u stage
    cases stage
  · intro u stage
    cases stage
  · intro view given
    cases given
  · intro _
    simp [start]

/-- With sufficient orderings no access is ever forgotten. -/
theorem published_of_reached (few : N < maxRefcount word) (sufficient : o.Sufficient)
    (reached : Reached word o m) : m.Published o := by
  obtain ⟨creator, unique, reaches⟩ := reached
  have both : m.Sound word ∧ m.Published o := by
    induction reaches with
    | refl =>
        exact ⟨sound_start word creator unique, published_start o creator unique⟩
    | tail action _ _ stepped ih =>
        have moved := moved_of_step stepped
        exact ⟨moved.sound ih.1 few, moved.published sufficient ih.1 ih.2⟩
  exact both.2

end Machine

end BackdropArc.RelaxedMemory
