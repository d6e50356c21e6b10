import BackdropArc.RelaxedBorrowing
import Mathlib.Algebra.Order.BigOperators.Group.Finset

/-!
# Counting references under relaxed memory

Read-modify-writes always act on the newest count, so whatever the orderings
are, the newest count is the number of references that are owned or leaked.
Only the answers of loads can be out of date.  That a uniqueness test is not
misled by an old answer rests on coherence: every message after an old count
of one was made through the very handle that is tested, or through a handle
that descends from it.
-/

namespace BackdropArc.RelaxedMemory

open GuardedRuns ReleaseHistory

/-- Whether the call counted a reference past the soft limit. -/
def Stage.pastLimit (word : MachineWord) : Stage → Nat
  | .cloning _ _ old => if maxRefcount word < old then 1 else 0
  | .idle | .dropLoad | .dropSlow => 0

theorem Stage.pastLimit_le (word : MachineWord) (stage : Stage) :
    stage.pastLimit word ≤ 1 := by
  cases stage with
  | cloning source unit old =>
      simp only [pastLimit]
      split <;> omega
  | idle | dropLoad | dropSlow => exact Nat.zero_le 1

namespace Machine

variable {N : Nat} {word : MachineWord} {o : Orderings} {m next : Machine N}
  {t : Fin N} {action : Action} {key k : Nat} {holder : Holder} {kind : Kind}

/-- The threads that counted a reference past the soft limit. -/
def pastLimit (word : MachineWord) (m : Machine N) : Nat :=
  ∑ t, (m.stages t).pastLimit word

/-- The parties that have the memory once nothing refers to it: a thread that
is about to give it up, the strategy, or nobody. -/
def claims (m : Machine N) : Nat :=
  (∑ t, (m.stages t).ending) + (if m.backdropped.isSome then 1 else 0) +
    if m.freed then 1 else 0

/-! ## The stages of all threads -/

theorem sum_update (weight : Stage → Nat) (stage : Stage) :
    (∑ u, weight (Function.update m.stages t stage u)) + weight (m.stages t) =
      (∑ u, weight (m.stages u)) + weight stage := by
  have before := Finset.add_sum_erase Finset.univ
    (fun u => weight (m.stages u)) (Finset.mem_univ t)
  have after := Finset.add_sum_erase Finset.univ
    (fun u => weight (Function.update m.stages t stage u)) (Finset.mem_univ t)
  have rest : ∑ u ∈ Finset.univ.erase t, weight (Function.update m.stages t stage u) =
      ∑ u ∈ Finset.univ.erase t, weight (m.stages u) :=
    Finset.sum_congr rfl fun u member => by
      rw [Function.update_of_ne (Finset.ne_of_mem_erase member)]
  simp only [Function.update_self] at after
  omega

theorem pastLimit_le (word : MachineWord) (m : Machine N) : m.pastLimit word ≤ N := by
  have each := Finset.sum_le_card_nsmul Finset.univ
    (fun t => (m.stages t).pastLimit word) 1 fun t _ => Stage.pastLimit_le _ _
  simpa [pastLimit] using each

theorem pastLimit_update (word : MachineWord) (m next : Machine N) {stage : Stage}
    (stages : next.stages = Function.update m.stages t stage) :
    next.pastLimit word + (m.stages t).pastLimit word =
      m.pastLimit word + stage.pastLimit word := by
  unfold pastLimit
  rw [stages]
  exact sum_update (Stage.pastLimit word) stage

theorem claims_update (m next : Machine N) {stage : Stage}
    (stages : next.stages = Function.update m.stages t stage)
    (backdropped : next.backdropped = m.backdropped) (freed : next.freed = m.freed) :
    next.claims + (m.stages t).ending = m.claims + stage.ending := by
  have moved := sum_update (m := m) (t := t) Stage.ending stage
  unfold claims
  rw [stages, backdropped, freed]
  omega

/-! ## The invariant -/

/-- The count and what it counts. -/
structure Counting (word : MachineWord) (m : Machine N) : Prop where
  value : m.freed = false → m.count.newest.value = m.references + m.leaked
  limit : m.freed = false →
    m.count.newest.value ≤ maxRefcount word + 1 + m.pastLimit word
  unique : ∀ {key holder}, m.holders.get? key = some holder →
    holder.kind = .handle true → m.references + m.leaked = 1
  claimed : m.claims = if m.references + m.leaked = 0 then 1 else 0

/-- What holders know of the count: an old count of one is no news to them,
and a clone iterator knows of no count too small for its own references. -/
structure Coherent (m : Machine N) : Prop where
  fresh : ∀ {key holder}, m.holders.get? key = some holder → holder.refs ≠ 0 →
    ∀ {i}, i < m.count.last → (m.count.messages i).value = 1 → i < holder.view.seen
  left : ∀ {key holder orig arcsLeft}, m.holders.get? key = some holder →
    holder.kind = .iter orig arcsLeft → ∀ {i}, holder.view.seen ≤ i →
      i ≤ m.count.last → arcsLeft < (m.count.messages i).value

structure Sound (word : MachineWord) (m : Machine N) : Prop where
  borrowing : Borrowing m.holders m.stages m.knows
  counting : Counting word m
  coherent : Coherent m

theorem refs_of_handle {unique : Bool} (kind : holder.kind = .handle unique) :
    holder.refs = 1 := by
  simp [Holder.refs, kind, Kind.refs]

/-- Two holders of references are counted twice. -/
theorem eq_of_references_le (found : m.holders.get? key = some holder) {other : Holder}
    (found' : m.holders.get? k = some other)
    (few : m.references < holder.refs + other.refs) : k = key := by
  by_contra different
  have both := SlotTable.add_le_weigh Holder.refs (Ne.symm different) found found'
  unfold references at few
  omega

/-- What a thread that holds a handle exclusively reads as one is the newest
count. -/
theorem Sound.newest_of_one (sound : m.Sound word) (takes : m.Takes t key holder)
    {unique : Bool} (kind : holder.kind = .handle unique) {i : Nat}
    (readable : m.count.Readable (m.knows t) i)
    (one : (m.count.messages i).value = 1) : i = m.count.last := by
  by_contra different
  have old : i < m.count.last := Nat.lt_of_le_of_ne readable.2 different
  have news := sound.coherent.fresh takes.found (by simp [refs_of_handle kind]) old one
  have known := takes.view_le.1
  have seen := readable.1
  omega

theorem Sound.total_of_tested (sound : m.Sound word) (takes : m.Takes t key holder)
    {unique : Bool} {v : View Nat} (kind : holder.kind = .handle unique)
    (tested : m.Tested o t v) : m.references + m.leaked = 1 := by
  obtain ⟨alive, i, readable, one, _⟩ := tested
  obtain rfl := sound.newest_of_one takes kind readable one
  exact (sound.counting.value alive).symm.trans one

/-- A handle that a step leaves unique was unique before it and knew no more,
or has just passed the test. -/
theorem Rearranged.unique_origin {v : View Nat} {holders : SlotTable Holder}
    {stages : Fin N → Stage} (rearranged : Rearranged o m t v holders stages)
    (borrowing : Borrowing m.holders m.stages m.knows) (knows_le : m.knows t ≤ v)
    (found : holders.get? k = some holder) (kind : holder.kind = .handle true) :
    ∃ before, m.holders.get? k = some before ∧
      (before.kind = .handle true ∧ before.view ≤ holder.view ∨
        before.kind = .handle false ∧ m.Takes t k before ∧ m.Tested o t v ∧
          v ≤ holder.view) := by
  have old {stored : Holder} (found : m.holders.get? k = some stored)
      (kind : stored.kind = .handle true) : ∃ before, m.holders.get? k = some before ∧
        (before.kind = .handle true ∧ before.view ≤ stored.view ∨
          before.kind = .handle false ∧ m.Takes t k before ∧ m.Tested o t v ∧
            v ≤ stored.view) :=
    ⟨stored, found, Or.inl ⟨kind, le_rfl⟩⟩
  have replaced {key : Nat} {stored entry : Holder}
      (at_key : m.holders.get? key = some stored)
      (like : k = key → entry.kind = .handle true →
        stored.kind = .handle true ∧ stored.view ≤ entry.view ∨
          stored.kind = .handle false ∧ m.Takes t k stored ∧ m.Tested o t v ∧
            v ≤ entry.view)
      (found : (m.holders.replace key entry).get? k = some holder) :
      ∃ before, m.holders.get? k = some before ∧
        (before.kind = .handle true ∧ before.view ≤ holder.view ∨
          before.kind = .handle false ∧ m.Takes t k before ∧ m.Tested o t v ∧
            v ≤ holder.view) := by
    rw [SlotTable.get?_replace at_key] at found
    split at found
    · next here =>
        cases found
        exact ⟨stored, here ▸ at_key, like here kind⟩
    · exact old found kind
  have shared {key : Nat} {stored : Holder} (at_key : m.holders.get? key = some stored)
      (found : (m.holders.replace key (stored.use v)).get? k = some holder) :
      ∃ before, m.holders.get? k = some before ∧
        (before.kind = .handle true ∧ before.view ≤ holder.view ∨
          before.kind = .handle false ∧ m.Takes t k before ∧ m.Tested o t v ∧
            v ≤ holder.view) := by
    refine replaced at_key ?_ found
    intro _ same
    exact Or.inl ⟨same, Holder.view_le_use stored v⟩
  cases rearranged with
  | same | proceed => exact old found kind
  | share shares => exact shared shares.found found
  | own takes like =>
      refine replaced takes.found ?_ found
      rintro rfl handle
      rcases like with ⟨before, _, same, rfl, granted⟩ | ⟨_, _, _, rfl⟩
      · rw [Holder.view_own]
        cases before with
        | true => exact Or.inl ⟨same, takes.view_le.trans knows_le⟩
        | false =>
            have tested := (granted (by simpa using handle)).resolve_left (by simp)
            exact Or.inr ⟨same, takes, tested, le_rfl⟩
      · simp at handle
  | clone shares | iterate shares =>
      rcases SlotTable.get?_of_insert found with rfl | found
      · simp at kind
      · exact shared shares.found found
  | next takes =>
      rcases SlotTable.get?_of_insert found with rfl | found
      · simp at kind
      · exact replaced takes.found (by simp) found
  | close takes iter lender => exact shared lender (SlotTable.get?_of_erase found)
  | discard | last => exact old (SlotTable.get?_of_erase found) kind
  | finish stage =>
      obtain ⟨unit, stored, _⟩ := borrowing.unit stage
      exact replaced stored (by simp) found

/-- A handle that a step leaves unique was the only reference before it. -/
theorem Sound.total_of_unique {v : View Nat} {holders : SlotTable Holder}
    {stages : Fin N → Stage} (sound : m.Sound word)
    (rearranged : Rearranged o m t v holders stages) (knows_le : m.knows t ≤ v)
    (found : holders.get? k = some holder) (kind : holder.kind = .handle true) :
    m.references + m.leaked = 1 := by
  obtain ⟨before, at_k, ⟨same, _⟩ | ⟨handle, takes, tested, _⟩⟩ :=
    rearranged.unique_origin sound.borrowing knows_le found kind
  · exact sound.counting.unique at_k same
  · exact sound.total_of_tested takes handle tested

/-! ## Steps and the count -/

theorem Counting.alone (counting : m.Counting word) {unique : Holder}
    (found : m.holders.get? k = some unique) (kind : unique.kind = .handle true)
    (found' : m.holders.get? key = some holder) (owns : holder.refs ≠ 0) : k = key := by
  have total := counting.unique found kind
  have one := refs_of_handle kind
  exact eq_of_references_le found' found (by omega)

/-- A step that only moves references around keeps the count right. -/
theorem Sound.counting_of_still (sound : m.Sound word)
    (rearranged : Rearranged o m t (next.knows t) next.holders next.stages)
    (knows_le : m.knows t ≤ next.knows t)
    (value : next.count.newest.value = m.count.newest.value)
    (total : next.references + next.leaked = m.references + m.leaked)
    (limit : next.pastLimit word = m.pastLimit word) (claims : next.claims = m.claims)
    (alive : next.freed = false → m.freed = false) : next.Counting word where
  value live := by rw [value, total, sound.counting.value (alive live)]
  limit live := by rw [value, limit]; exact sound.counting.limit (alive live)
  unique found kind := by
    rw [total]
    exact sound.total_of_unique rearranged knows_le found kind
  claimed := by rw [claims, total, sound.counting.claimed]

/-- While something refers to the allocation nobody else has the memory. -/
theorem Counting.claims_eq_zero (counting : m.Counting word)
    (found : m.holders.get? key = some holder) (owns : holder.refs ≠ 0) :
    m.claims = 0 := by
  have some := refs_le_references found
  rw [counting.claimed, if_neg (by omega)]

theorem Counting.value_lt_modulus (counting : m.Counting word) (alive : m.freed = false)
    (few : N < maxRefcount word) : m.count.newest.value + 1 < word.modulus := by
  have bound := counting.limit alive
  have threads := pastLimit_le word m
  have width := word.modulus_eq
  unfold maxRefcount at few bound
  omega

theorem references_used_hold (found : m.holders.get? key = some holder) :
    ((m.used t key holder).hold t kind).references = m.references + kind.refs :=
  (references_hold _ t kind).trans (congrArg (· + kind.refs) (references_used found))

/-- Nothing is unique once a handle was shared to make another reference. -/
theorem Counting.not_unique_of_shared (counting : m.Counting word) {entry after : Holder}
    {v : View Nat} (found : m.holders.get? key = some holder)
    (kind : holder.kind = .handle false) (plain : entry.kind ≠ .handle true)
    (stored : ((m.holders.replace key (holder.use v)).insert entry).get? k = some after) :
    after.kind ≠ .handle true := by
  intro unique
  rcases SlotTable.get?_of_insert stored with rfl | stored
  · exact plain unique
  rw [SlotTable.get?_replace found] at stored
  split at stored
  · cases stored
    exact absurd (kind.symm.trans unique) (by simp)
  · next different =>
      exact different (counting.alone stored unique found (by simp [refs_of_handle kind]))

theorem Counting.not_unique_of_erase (counting : m.Counting word) {after : Holder}
    (found : m.holders.get? key = some holder) (owns : holder.refs ≠ 0)
    (stored : (m.holders.erase key).get? k = some after) : after.kind ≠ .handle true := by
  intro unique
  rw [SlotTable.get?_erase] at stored
  split at stored
  · cases stored
  · next different => exact different (counting.alone stored unique found owns)

theorem Sound.counting_clone (sound : m.Sound word) (few : N < maxRefcount word)
    (shares : m.Shares t key holder) (kind : holder.kind = .handle false)
    (performs : m.Performs t .count) :
    (m.cloneCounted word o t key holder).Counting word := by
  have owns := refs_of_handle kind
  have total := sound.counting.value performs.alive
  have bound := sound.counting.limit performs.alive
  have fits := sound.counting.value_lt_modulus performs.alive few
  have none := sound.counting.claims_eq_zero shares.found (by omega)
  have value : (m.cloneCounted word o t key holder).count.newest.value =
      m.count.newest.value + 1 :=
    Location.value_newest_modify.trans (word.wrappingAdd_eq fits)
  have references : (m.cloneCounted word o t key holder).references = m.references + 1 :=
    references_used_hold (m := (m.record t .count).modify t _ _) shares.found
  have leaked : (m.cloneCounted word o t key holder).leaked = m.leaked := rfl
  have limit := pastLimit_update word m (m.cloneCounted word o t key holder) rfl
  have claims := claims_update m (m.cloneCounted word o t key holder) rfl rfl rfl
  rw [shares.idle] at limit claims
  constructor
  · intro _
    omega
  · intro _
    simp only [Stage.pastLimit] at limit
    split at limit <;> omega
  · intro k after stored unique
    exact absurd unique
      (sound.counting.not_unique_of_shared shares.found kind (by simp) stored)
  · rw [if_neg (by omega)]
    simp only [Stage.ending] at claims
    omega

theorem Sound.counting_cloneMany (sound : m.Sound word) {ordering : MemoryOrdering}
    {count val : Nat} (shares : m.Shares t key holder)
    (kind : holder.kind = .handle false) (performs : m.Performs t .count)
    (computed : cloneManyUpdate word count m.count.newest.value = .ok val) :
    (((((m.record t .count).modify t ordering fun _ => val).used t key
      holder).hold t (.iter key count))).Counting word := by
  generalize after : ((((m.record t .count).modify t ordering fun _ => val).used t key
    holder).hold t (.iter key count)) = next
  have owns := refs_of_handle kind
  have some := refs_le_references shares.found
  have total := sound.counting.value performs.alive
  have none := sound.counting.claims_eq_zero shares.found (by omega)
  have sum : val = m.count.newest.value + count ∧ val ≤ maxRefcount word := by
    unfold cloneManyUpdate at computed
    split at computed
    · cases computed
    split at computed
    · cases computed
    · cases computed
      exact ⟨rfl, by omega⟩
  have value : next.count.newest.value = val := by
    rw [← after]
    exact Location.value_newest_modify
  have references : next.references = m.references + count := by
    rw [← after]
    exact references_used_hold (m := (m.record t .count).modify t _ _) shares.found
  have leaked : next.leaked = m.leaked := by rw [← after]; rfl
  have claims : next.claims = m.claims := by rw [← after]; rfl
  constructor
  · intro _
    omega
  · intro _
    omega
  · intro k unique stored same
    rw [← after] at stored
    exact absurd same
      (sound.counting.not_unique_of_shared shares.found kind (by simp) stored)
  · rw [if_neg (by omega), claims, none]

theorem refs_of_iter {orig arcsLeft : Nat} (kind : holder.kind = .iter orig arcsLeft) :
    holder.refs = arcsLeft := by
  simp [Holder.refs, kind, Kind.refs]

/-- A clone iterator is not the handle it borrows. -/
theorem Borrowing.ne_lender (borrowing : Borrowing m.holders m.stages m.knows)
    {orig arcsLeft : Nat} (found : m.holders.get? key = some holder)
    (kind : holder.kind = .iter orig arcsLeft) : key ≠ orig := by
  rintro rfl
  obtain ⟨stored, lender, handle⟩ := borrowing.lender found kind
  rw [found] at lender
  cases lender
  exact absurd (kind.symm.trans handle) (by simp)

/-- A clone iterator never owns the last reference. -/
theorem Borrowing.lt_references (borrowing : Borrowing m.holders m.stages m.knows)
    {orig arcsLeft : Nat} (found : m.holders.get? key = some holder)
    (kind : holder.kind = .iter orig arcsLeft) : arcsLeft < m.references := by
  obtain ⟨stored, lender, handle⟩ := borrowing.lender found kind
  have both := SlotTable.add_le_weigh Holder.refs (borrowing.ne_lender found kind)
    found lender
  rw [refs_of_iter kind, refs_of_handle handle] at both
  exact both

theorem references_close {orig arcsLeft : Nat} {source : Holder} (other : key ≠ orig)
    (found : m.holders.get? key = some holder) (kind : holder.kind = .iter orig arcsLeft)
    (lender : m.holders.get? orig = some source) :
    ((m.used t orig source).discard key).references + arcsLeft = m.references := by
  have kept : (m.used t orig source).holders.get? key = some holder := by
    rw [get?_used lender, if_neg other, found]
  have discarded := references_discard kept
  rw [references_used lender, refs_of_iter kind] at discarded
  exact discarded

theorem Sound.not_unique_of_close (sound : m.Sound word) {orig arcsLeft : Nat}
    {source after : Holder} {v : View Nat} (found : m.holders.get? key = some holder)
    (kind : holder.kind = .iter orig arcsLeft) (lender : m.holders.get? orig = some source)
    (owns : holder.refs ≠ 0)
    (stored : ((m.holders.replace orig (source.use v)).erase key).get? k = some after) :
    after.kind ≠ .handle true := by
  intro unique
  rw [SlotTable.get?_erase] at stored
  split at stored
  · cases stored
  rw [SlotTable.get?_replace lender] at stored
  split at stored
  · cases stored
    obtain ⟨_, at_orig, handle⟩ := sound.borrowing.lender found kind
    rw [lender] at at_orig
    cases at_orig
    exact absurd (handle.symm.trans unique) (by simp)
  · next different _ =>
      exact different (sound.counting.alone stored unique found owns)

theorem Sound.counting_dropIter (sound : m.Sound word) {ordering : MemoryOrdering}
    {orig arcsLeft val : Nat} {source : Holder} (takes : m.Takes t key holder)
    (kind : holder.kind = .iter orig arcsLeft) (lender : m.holders.get? orig = some source)
    (some : arcsLeft ≠ 0) (performs : m.Performs t .count)
    (computed : dropIterUpdate arcsLeft m.count.newest.value = .ok val) :
    ((((m.record t .count).modify t ordering fun _ => val).used t orig
      source).discard key).Counting word := by
  generalize after : ((((m.record t .count).modify t ordering fun _ => val).used t orig
    source).discard key) = next
  have more := sound.borrowing.lt_references takes.found kind
  have owns := refs_of_iter kind
  have total := sound.counting.value performs.alive
  have bound := sound.counting.limit performs.alive
  have none := sound.counting.claims_eq_zero takes.found (by omega)
  have difference : val = m.count.newest.value - arcsLeft := by
    unfold dropIterUpdate at computed
    split at computed
    · cases computed
    · exact (Except.ok.inj computed).symm
  have value : next.count.newest.value = val := by
    rw [← after]
    exact Location.value_newest_modify
  have references : next.references + arcsLeft = m.references := by
    rw [← after]
    exact references_close (m := (m.record t .count).modify t ordering fun _ => val)
      (sound.borrowing.ne_lender takes.found kind) takes.found kind lender
  have leaked : next.leaked = m.leaked := by rw [← after]; rfl
  have claims : next.claims = m.claims := by rw [← after]; rfl
  have limit : next.pastLimit word = m.pastLimit word := by rw [← after]; rfl
  constructor
  · intro _
    omega
  · intro _
    omega
  · intro k unique stored same
    rw [← after] at stored
    exact absurd same
      (sound.not_unique_of_close takes.found kind lender (by omega) stored)
  · rw [if_neg (by omega), claims, none]

theorem Sound.counting_drop (sound : m.Sound word) (few : N < maxRefcount word)
    {unique : Bool} (takes : m.Takes t key holder) (kind : holder.kind = .handle unique)
    (performs : m.Performs t .count) :
    (if m.count.newest.value ≠ 1 then m.dropCounted word o t key
      else (m.dropCounted word o t key).setStage t .dropLoad).Counting word := by
  have owns := refs_of_handle kind
  have some := refs_le_references takes.found
  have total := sound.counting.value performs.alive
  have bound := sound.counting.limit performs.alive
  have fits := sound.counting.value_lt_modulus performs.alive few
  have none := sound.counting.claims_eq_zero takes.found (by omega)
  have less : word.wrappingSub m.count.newest.value 1 = m.count.newest.value - 1 :=
    word.wrappingSub_eq (by omega) (by omega)
  have value : (m.dropCounted word o t key).count.newest.value =
      m.count.newest.value - 1 :=
    Location.value_newest_modify.trans less
  have references : (m.dropCounted word o t key).references + 1 = m.references :=
    owns ▸ references_discard (m := (m.record t .count).modify t _ _) takes.found
  have leaked : (m.dropCounted word o t key).leaked = m.leaked := rfl
  have plain : ∀ {k after}, (m.dropCounted word o t key).holders.get? k = Option.some after →
      after.kind ≠ .handle true :=
    fun stored => sound.counting.not_unique_of_erase takes.found (by omega) stored
  split
  · have claims : (m.dropCounted word o t key).claims = m.claims := rfl
    have limit : (m.dropCounted word o t key).pastLimit word = m.pastLimit word := rfl
    constructor
    · intro _
      omega
    · intro _
      omega
    · intro k after stored same
      exact absurd same (plain stored)
    · rw [if_neg (by omega), claims, none]
  · generalize after : (m.dropCounted word o t key).setStage t .dropLoad = next
    have limit := pastLimit_update word m next (t := t) (by rw [← after]; rfl)
    have claims := claims_update m next (t := t) (by rw [← after]; rfl)
      (by rw [← after]; rfl) (by rw [← after]; rfl)
    rw [takes.idle] at limit claims
    simp only [Stage.pastLimit, Stage.ending] at limit claims
    have value : next.count.newest.value = m.count.newest.value - 1 := by
      rw [← after]
      exact value
    have references : next.references + 1 = m.references := by
      rw [← after]
      exact references
    have leaked : next.leaked = m.leaked := by rw [← after]; rfl
    constructor
    · intro _
      omega
    · intro _
      omega
    · intro k unique stored same
      rw [← after] at stored
      exact absurd same (plain stored)
    · rw [if_pos (by omega)]
      omega

theorem Sound.counting_intoInner (sound : m.Sound word)
    (takes : m.Takes t key holder) (kind : holder.kind = .handle true)
    (performs : m.Performs t .free) :
    Counting word { (m.record t .free).discard key with freed := true } := by
  generalize after : { (m.record t .free).discard key with freed := true } = next
  have owns := refs_of_handle kind
  have total := sound.counting.unique takes.found kind
  have none := sound.counting.claims_eq_zero takes.found (by omega)
  have references : next.references + 1 = m.references := by
    rw [← after, ← owns]
    exact references_discard takes.found
  have leaked : next.leaked = m.leaked := by rw [← after]; rfl
  have freed : next.freed = true := by rw [← after]
  have claims : next.claims = m.claims + 1 := by
    have alive := performs.alive
    rw [← after]
    simp [Machine.claims, discard, record, alive]
  constructor
  · intro live
    simp [freed] at live
  · intro live
    simp [freed] at live
  · intro k unique stored same
    rw [← after] at stored
    exact absurd same
      (sound.counting.not_unique_of_erase takes.found (by omega) stored)
  · rw [if_pos (by omega), claims, none]

theorem Sound.counting_destroy {view : View Nat} (sound : m.Sound word)
    (given : m.backdropped = some view) (performs : m.Performs t .free) :
    Counting word { m.record t .free with backdropped := none, freed := true } := by
  have alive := performs.alive
  have claims : claims { m.record t .free with backdropped := none, freed := true } =
      m.claims := by
    simp [Machine.claims, record, alive, given]
  constructor
  · intro live
    simp at live
  · intro live
    simp at live
  · intro k unique stored same
    exact sound.counting.unique stored same
  · exact claims.trans sound.counting.claimed

theorem references_keep_of_refs (found : m.holders.get? key = some holder)
    (same : kind.refs = holder.refs) : (m.keep t key kind).references = m.references := by
  have kept := references_keep t kind found
  omega

theorem references_split {orig arcsLeft : Nat} (found : m.holders.get? key = some holder)
    (kind : holder.kind = .iter orig arcsLeft) (some : arcsLeft ≠ 0) :
    ((m.keep t key (.iter orig (arcsLeft - 1))).hold t (.handle false)).references =
      m.references := by
  have kept := references_keep t (.iter orig (arcsLeft - 1)) found
  have held := references_hold (m.keep t key (.iter orig (arcsLeft - 1))) t (.handle false)
  rw [refs_of_iter kind] at kept
  simp only [Kind.refs] at kept held
  omega

/-- The check in `clone` ends the call; the reference was already counted. -/
theorem Sound.counting_cloned (sound : m.Sound word) {source unit old : Nat}
    (stage : m.stages t = .cloning source unit old) (below : old ≤ maxRefcount word) :
    ((m.keep t unit (.handle false)).setStage t .idle).Counting word := by
  obtain ⟨holder, found, cloned, _⟩ := sound.borrowing.unit stage
  have moved : Moved word .source m t (.advance 0)
    ((m.keep t unit (.handle false)).setStage t .idle) := .cloned stage below
  have still := sound.counting_of_still moved.rearranged (moved.knows_le t)
  have limit := pastLimit_update word m
    ((m.keep t unit (.handle false)).setStage t .idle) (t := t) rfl
  have claims := claims_update m
    ((m.keep t unit (.handle false)).setStage t .idle) (t := t) rfl rfl rfl
  rw [stage] at limit claims
  simp only [Stage.pastLimit, Stage.ending, if_neg (Nat.not_lt.mpr below)] at limit claims
  refine still rfl ?_ limit claims id
  have kept : (m.keep t unit (.handle false)).references = m.references := by
    refine references_keep_of_refs found ?_
    simp [Holder.refs, cloned, Kind.refs]
  exact congrArg (· + m.leaked) kept

theorem Sound.counting_dropLoad (sound : m.Sound word) {ordering : MemoryOrdering}
    {i : Nat} (stage : m.stages t = .dropLoad) :
    (((m.record t .count).load t ordering i).setStage t .dropSlow).Counting word := by
  generalize after : ((m.record t .count).load t ordering i).setStage t .dropSlow = next
  have stages : next.stages = Function.update m.stages t .dropSlow := by rw [← after]; rfl
  have holders : next.holders = m.holders := by rw [← after]; rfl
  have leaked : next.leaked = m.leaked := by rw [← after]; rfl
  have freed : next.freed = m.freed := by rw [← after]; rfl
  have limit := pastLimit_update word m next stages
  have claims := claims_update m next stages (by rw [← after]; rfl) freed
  rw [stage] at limit claims
  refine sound.counting_of_still (o := .source) (t := t) ?_ ?_ (by rw [← after]; rfl) ?_
    limit (Nat.add_right_cancel claims) (by rw [freed]; exact id)
  · rw [holders, stages]
    exact .proceed (by rw [stage]; rfl) rfl
  · rw [← after]
    exact (knows_le_record .count t).trans (knows_le_load ordering i t)
  · rw [references, holders, leaked]
    rfl

theorem Sound.counting_dropSlow (sound : m.Sound word) (stage : m.stages t = .dropSlow) :
    Counting word { m.setStage t .idle with backdropped := some (m.knows t) } := by
  generalize after : { m.setStage t .idle with backdropped := some (m.knows t) } = next
  have stages : next.stages = Function.update m.stages t .idle := by rw [← after]; rfl
  have holders : next.holders = m.holders := by rw [← after]; rfl
  have leaked : next.leaked = m.leaked := by rw [← after]; rfl
  have freed : next.freed = m.freed := by rw [← after]; rfl
  have limit := pastLimit_update word m next stages
  have moved := sum_update (m := m) (t := t) Stage.ending .idle
  rw [stage] at limit moved
  refine sound.counting_of_still (o := .source) (t := t) ?_ ?_ (by rw [← after]; rfl) ?_
    limit ?_ (by rw [freed]; exact id)
  · rw [holders, stages]
    exact .proceed (by rw [stage]; rfl) rfl
  · rw [← after]
    exact le_rfl
  · rw [references, holders, leaked]
    rfl
  · -- the thread has the only claim, which it passes on
    have most : m.claims ≤ 1 := by
      rw [sound.counting.claimed]
      split <;> omega
    have before : m.claims = (∑ u, (m.stages u).ending) +
      (if m.backdropped.isSome then 1 else 0) + (if m.freed then 1 else 0) := rfl
    have now : next.claims = (∑ u, (Function.update m.stages t .idle u).ending) + 1 +
        (if m.freed then 1 else 0) := by
      rw [← after]
      rfl
    have ends : Stage.ending .dropSlow = 1 := rfl
    have idle : Stage.ending .idle = 0 := rfl
    omega

/-- Every step keeps the count right. -/
theorem Moved.counting (moved : Moved word o m t action next) (sound : m.Sound word)
    (few : N < maxRefcount word) : next.Counting word := by
  have still := sound.counting_of_still moved.rearranged (moved.knows_le t)
  have leaking {total : Nat} (same : total = m.references) :
      total + m.leaked = m.references + m.leaked := by rw [same]
  cases moved with
  | post | receive | nextNone => exact still rfl rfl rfl rfl id
  | read shares | cloneManyRetry shares | count shares =>
      exact still rfl (leaking (references_used shares.found)) rfl rfl id
  | write takes kind | shareable takes kind | tryUnique takes kind =>
      refine still rfl (leaking (references_keep_of_refs takes.found ?_)) rfl rfl id
      exact (refs_of_handle kind).symm
  | dropIterRetry takes kind =>
      refine still rfl (leaking (references_keep_of_refs takes.found ?_)) rfl rfl id
      exact (refs_of_iter kind).symm
  | clone shares kind performs => exact sound.counting_clone few shares kind performs
  | cloneMany shares kind performs computed =>
      exact sound.counting_cloneMany shares kind performs computed
  | next takes kind some =>
      exact still rfl (leaking (references_split takes.found kind some)) rfl rfl id
  | dropIterNone takes kind lender =>
      refine still rfl (leaking ?_) rfl rfl id
      exact references_close (sound.borrowing.ne_lender takes.found kind) takes.found
        kind lender
  | dropIter takes kind lender some performs computed =>
      exact sound.counting_dropIter takes kind lender some performs computed
  | forgetIter takes kind lender =>
      refine still rfl ?_ rfl rfl id
      have closed := references_close (t := t)
        (sound.borrowing.ne_lender takes.found kind) takes.found kind lender
      rw [← closed, Nat.add_assoc, Nat.add_comm _ m.leaked]
      rfl
  | drop takes kind performs more =>
      have drops := sound.counting_drop (o := o) few takes kind performs
      rwa [if_pos more] at drops
  | dropLast takes kind performs last =>
      have drops := sound.counting_drop (o := o) few takes kind performs
      rwa [if_neg (not_not.mpr last)] at drops
  | forget takes kind =>
      refine still rfl ?_ rfl rfl id
      have discarded := references_discard takes.found
      rw [← discarded, refs_of_handle kind, Nat.add_assoc, Nat.add_comm 1]
      rfl
  | intoInner takes kind performs => exact sound.counting_intoInner takes kind performs
  | destroy idle given view_le performs => exact sound.counting_destroy given performs
  | cloned stage below => exact sound.counting_cloned stage below
  | dropLoad stage => exact sound.counting_dropLoad stage
  | dropSlow stage => exact sound.counting_dropSlow stage

end Machine

end BackdropArc.RelaxedMemory
