import BackdropArc.RelaxedCounting

/-!
# What holders know of old counts

A step leaves holders that descend from those before it and know at least as
much, and whoever changes the count knows the new one.  So no holder is ever
unaware of the end of an old count of one, whatever the orderings are.
-/

namespace BackdropArc.RelaxedMemory

open GuardedRuns ReleaseHistory

namespace Holder

/-- `after` was made from `before` while the newest count was message `last`:
it knows of the exclusive uses, and either of a later count or of everything
that `before` knew, for no more references. -/
structure Descends (last : Nat) (before after : Holder) : Prop where
  owned_le : before.owned ≤ after.owned
  knows : last < after.view.seen ∨
    before.view ≤ after.view ∧ (after.refs ≠ 0 → before.refs ≠ 0) ∧
      ∀ {orig arcsLeft}, after.kind = .iter orig arcsLeft →
        ∃ arcsLeft', arcsLeft ≤ arcsLeft' ∧ before.kind = .iter orig arcsLeft'

variable {last : Nat} {holder : Holder} {kind : Kind} {v : View Nat}

theorem Descends.refl (last : Nat) (holder : Holder) : holder.Descends last holder :=
  ⟨le_rfl, Or.inr ⟨le_rfl, id, fun same => ⟨_, Nat.le_refl _, same⟩⟩⟩

theorem descends_use (last : Nat) (holder : Holder) (v : View Nat) :
    holder.Descends last (holder.use v) :=
  ⟨le_rfl, Or.inr ⟨view_le_use holder v, id, fun same => ⟨_, Nat.le_refl _, same⟩⟩⟩

/-- A holder made by an exclusive use. -/
theorem descends_own (view_le : holder.view ≤ v) (owns : holder.refs ≠ 0)
    (plain : ∀ {orig arcsLeft}, kind ≠ .iter orig arcsLeft) :
    holder.Descends last ⟨kind, v, ⊥⟩ where
  owned_le := le_sup_left.trans view_le
  knows := Or.inr ⟨by rwa [view_own], fun _ => owns, fun same => absurd same plain⟩

theorem descends_iter {orig arcsLeft arcsLeft' : Nat} (view_le : holder.view ≤ v)
    (before : holder.kind = .iter orig arcsLeft') (fewer : arcsLeft ≤ arcsLeft') :
    holder.Descends last ⟨.iter orig arcsLeft, v, ⊥⟩ where
  owned_le := le_sup_left.trans view_le
  knows := by
    refine Or.inr ⟨by rwa [view_own], ?_, ?_⟩
    · simp only [Holder.refs, Kind.refs, before]
      omega
    · intro _ _ same
      cases same
      exact ⟨arcsLeft', fewer, before⟩

/-- A holder made by a party that knows the newest count. -/
theorem descends_newest (owned_le : holder.owned ≤ v) (newest : last < v.seen) :
    holder.Descends last ⟨kind, v, ⊥⟩ :=
  ⟨owned_le, Or.inl (by rwa [view_own])⟩

end Holder

namespace Machine

variable {N : Nat} {word : MachineWord} {o : Orderings} {m next : Machine N}
  {t : Fin N} {action : Action} {key k : Nat} {holder : Holder} {v : View Nat}
  {holders : SlotTable Holder} {stages : Fin N → Stage}

/-- Every holder after a step descends from one before it. -/
theorem Rearranged.origin (rearranged : Rearranged o m t v holders stages)
    (borrowing : Borrowing m.holders m.stages m.knows) (knows_le : m.knows t ≤ v)
    (found : holders.get? k = some holder) :
    ∃ key before, m.holders.get? key = some before ∧
      before.Descends m.count.last holder := by
  have old {k : Nat} {holder : Holder} (found : m.holders.get? k = some holder) :
      ∃ key before, m.holders.get? key = some before ∧
        before.Descends m.count.last holder :=
    ⟨k, holder, found, .refl _ _⟩
  have replaced {key : Nat} {stored entry : Holder}
      (at_key : m.holders.get? key = some stored)
      (descends : stored.Descends m.count.last entry)
      (found : (m.holders.replace key entry).get? k = some holder) :
      ∃ key before, m.holders.get? key = some before ∧
        before.Descends m.count.last holder := by
    rw [SlotTable.get?_replace at_key] at found
    split at found
    · cases found
      exact ⟨key, stored, at_key, descends⟩
    · exact old found
  cases rearranged with
  | same | proceed => exact old found
  | share shares => exact replaced shares.found (Holder.descends_use _ _ _) found
  | own takes like =>
      have view_le := takes.view_le.trans knows_le
      refine replaced takes.found ?_ found
      rcases like with ⟨_, _, before, rfl, _⟩ | ⟨_, _, before, rfl⟩
      · exact Holder.descends_own view_le (by simp [refs_of_handle before]) (by simp)
      · exact Holder.descends_iter view_le before (Nat.le_refl _)
  | clone shares kind newest | iterate shares kind newest =>
      rcases SlotTable.get?_of_insert found with rfl | found
      · exact ⟨_, _, shares.found,
          Holder.descends_newest (shares.owned_le.trans knows_le) newest⟩
      · exact replaced shares.found (Holder.descends_use _ _ _) found
  | next takes iter some =>
      have view_le := takes.view_le.trans knows_le
      rcases SlotTable.get?_of_insert found with rfl | found
      · exact ⟨_, _, takes.found,
          Holder.descends_own view_le (by rwa [refs_of_iter iter]) (by simp)⟩
      · exact replaced takes.found (Holder.descends_iter view_le iter (by omega)) found
  | close takes iter lender =>
      exact replaced lender (Holder.descends_use _ _ _) (SlotTable.get?_of_erase found)
  | discard | last => exact old (SlotTable.get?_of_erase found)
  | finish stage =>
      obtain ⟨unit, stored, cloned, view_le⟩ := borrowing.unit stage
      refine replaced stored (Holder.descends_own (view_le.trans knows_le) ?_ ?_) found
      · simp [Holder.refs, cloned, Kind.refs]
      · simp

theorem Moved.borrowing (moved : Moved word o m t action next)
    (borrowing : Borrowing m.holders m.stages m.knows) :
    Borrowing next.holders next.stages next.knows :=
  moved.rearranged.borrowing borrowing moved.knows_le rfl

/-! ## The messages -/

/-- A step leaves the count alone, or adds one message in memory that is still
there. -/
theorem Moved.count_cases (moved : Moved word o m t action next) :
    next.count = m.count ∨
      next.freed = false ∧ m.freed = false ∧ ∃ ordering view change,
        next.count = m.count.modify ordering view change := by
  have added (alive : m.freed = false) (ordering : MemoryOrdering)
      (change : Nat → Nat) (live : next.freed = m.freed)
      (changed : next.count = ((m.record t .count).modify t ordering change).count) :
      next.count = m.count ∨ next.freed = false ∧ m.freed = false ∧
        ∃ ordering view change, next.count = m.count.modify ordering view change :=
    Or.inr ⟨live.trans alive, alive, ordering, _, change, changed⟩
  cases moved with
  | post | receive | read | write | cloneManyRetry | nextNone | next | dropIterRetry |
      dropIterNone | forgetIter | count | tryUnique | shareable | forget | intoInner |
      destroy | cloned | dropLoad | dropSlow => exact Or.inl rfl
  | clone shares kind performs =>
      exact added performs.alive o.clone (word.wrappingAdd · 1) rfl rfl
  | @cloneMany key count val holder shares kind performs =>
      exact added performs.alive o.iterNewSet (fun _ => val) rfl rfl
  | @dropIter key orig arcsLeft val holder source takes kind lender some performs =>
      exact added performs.alive o.iterDropSet (fun _ => val) rfl rfl
  | drop takes kind performs | dropLast takes kind performs =>
      exact added performs.alive o.dropSub (word.wrappingSub · 1) rfl rfl

theorem Moved.messages (moved : Moved word o m t action next) {i : Nat}
    (old : i ≤ m.count.last) : next.count.messages i = m.count.messages i := by
  rcases moved.count_cases with same | ⟨_, _, _, _, _, changed⟩
  · rw [same]
  · rw [changed, Location.messages_modify old]

theorem Counting.total_of_one (counting : m.Counting word) (alive : m.freed = false)
    (one : m.count.newest.value = 1) : m.references + m.leaked = 1 :=
  (counting.value alive).symm.trans one

/-- Whoever changes a count of one knows the new count, and nobody else is left. -/
theorem Moved.news (moved : Moved word o m t action next) (sound : m.Sound word)
    (changed : next.count.last ≠ m.count.last) (one : m.count.newest.value = 1)
    (found : next.holders.get? k = some holder) (owns : holder.refs ≠ 0) :
    m.count.last < holder.view.seen := by
  have aloneHere {key : Nat} {stored other : Holder} (alive : m.freed = false)
      (at_key : m.holders.get? key = some stored) (owner : stored.refs ≠ 0)
      (at_k : m.holders.get? k = some other) (owns : other.refs ≠ 0) : k = key := by
    have total := sound.counting.total_of_one alive one
    exact eq_of_references_le at_key at_k (by omega)
  have shared {key : Nat} {stored entry : Holder} {v : View Nat} (alive : m.freed = false)
      (newest : m.count.last < v.seen) (at_key : m.holders.get? key = some stored)
      (owner : stored.refs ≠ 0) (made : entry.view = v)
      (found : ((m.holders.replace key (stored.use v)).insert entry).get? k =
        some holder) : m.count.last < holder.view.seen := by
    rcases SlotTable.get?_of_insert found with rfl | found
    · rwa [made]
    rw [SlotTable.get?_replace at_key] at found
    split at found
    · cases found
      exact newest.trans_le (Holder.le_use stored v).1
    · next different =>
        exact absurd (aloneHere alive at_key owner found owns) different
  have erased {key : Nat} {stored : Holder} (alive : m.freed = false)
      (at_key : m.holders.get? key = some stored) (owner : stored.refs ≠ 0)
      (found : (m.holders.erase key).get? k = some holder) :
      m.count.last < holder.view.seen := by
    rw [SlotTable.get?_erase] at found
    split at found
    · cases found
    · next different =>
        exact absurd (aloneHere alive at_key owner found owns) different
  have newest (ordering : MemoryOrdering) :=
    last_lt_seen_modify (m.record t .count) t ordering id
  cases moved with
  | post | receive | read | write | cloneManyRetry | nextNone | next | dropIterRetry |
      dropIterNone | forgetIter | count | tryUnique | shareable | forget | intoInner |
      destroy | cloned | dropLoad | dropSlow => exact absurd rfl changed
  | clone shares kind performs =>
      exact shared performs.alive (newest o.clone) shares.found
        (by simp [refs_of_handle kind]) (Holder.view_own _ _) found
  | cloneMany shares kind performs computed =>
      exact shared performs.alive (newest o.iterNewSet) shares.found
        (by simp [refs_of_handle kind]) (Holder.view_own _ _) found
  | dropIter takes kind lender some performs computed =>
      have more := sound.borrowing.lt_references takes.found kind
      have total := sound.counting.total_of_one performs.alive one
      omega
  | drop takes kind performs =>
      exact erased performs.alive takes.found (by simp [refs_of_handle kind]) found
  | dropLast takes kind performs =>
      exact erased performs.alive takes.found (by simp [refs_of_handle kind]) found

theorem Moved.coherent (moved : Moved word o m t action next) (sound : m.Sound word)
    (counting : next.Counting word) : next.Coherent where
  fresh {k holder} found owns i before one := by
    have origin := moved.rearranged.origin sound.borrowing (moved.knows_le t) found
    by_cases old : i < m.count.last
    · obtain ⟨key, stored, at_key, descends⟩ := origin
      rw [moved.messages (Nat.le_of_lt old)] at one
      rcases descends.knows with newest | ⟨view_le, owned, _⟩
      · exact old.trans newest
      · exact (sound.coherent.fresh at_key (owned owns) old one).trans_le view_le.1
    · have last : i = m.count.last := by
        rcases moved.count_cases with same | ⟨_, _, _, _, _, changed⟩
        · rw [same] at before
          exact absurd before old
        · rw [changed, Location.last_modify] at before
          omega
      subst last
      rw [moved.messages (Nat.le_refl _)] at one
      exact moved.news sound (Nat.ne_of_gt before) one found owns
  left {k holder orig arcsLeft} found kind i after before := by
    by_cases old : i ≤ m.count.last
    · obtain ⟨key, stored, at_key, descends⟩ :=
        moved.rearranged.origin sound.borrowing (moved.knows_le t) found
      rw [moved.messages old]
      rcases descends.knows with newest | ⟨view_le, _, fewer⟩
      · omega
      · obtain ⟨arcsLeft', le, kind'⟩ := fewer kind
        exact le.trans_lt
          (sound.coherent.left at_key kind' (view_le.1.trans after) old)
    · -- the only new message holds the number of references that there are now
      have newest : i = next.count.last ∧ next.freed = false := by
        rcases moved.count_cases with same | ⟨alive, _, _, _, _, changed⟩
        · rw [same] at before
          exact absurd before old
        · rw [changed, Location.last_modify] at before ⊢
          exact ⟨by omega, alive⟩
      have more := (moved.borrowing sound.borrowing).lt_references found kind
      have value := counting.value newest.2
      unfold Location.newest at value
      rw [newest.1, value]
      omega

/-- Every step keeps the books. -/
theorem Moved.sound (moved : Moved word o m t action next) (sound : m.Sound word)
    (few : N < maxRefcount word) : next.Sound word :=
  ⟨moved.borrowing sound.borrowing, moved.counting sound few,
    moved.coherent sound (moved.counting sound few)⟩

theorem get?_start {creator : Fin N} {unique : Bool}
    (found : (start creator unique).holders.get? k = some holder) :
    holder = ⟨.handle unique, ⟨0, {0}⟩, ⊥⟩ := by
  rcases SlotTable.get?_of_insert found with same | none
  · exact same
  · simp at none

theorem sound_start (word : MachineWord) (creator : Fin N) (unique : Bool) :
    (start creator unique).Sound word where
  borrowing := by
    constructor
    · intro key holder orig arcsLeft found kind
      rw [get?_start found] at kind
      cases kind
    · intro u source unit old stage
      cases stage
    · intro u source unit old stage
      cases stage
    · intro u w source source' unit old old' stage
      cases stage
  counting := by
    have one : (start creator unique).references = 1 := rfl
    constructor
    · intro _
      rfl
    · intro _
      exact Nat.le_add_right_of_le (Nat.le_add_left 1 _)
    · intro key holder found kind
      rfl
    · rw [one]
      simp [claims, start, Stage.ending]
  coherent := by
    constructor
    · intro key holder found owns i before
      exact absurd before (Nat.not_lt_zero i)
    · intro key holder orig arcsLeft found kind
      rw [get?_start found] at kind
      cases kind

/-- The states that the operations reach from a fresh allocation. -/
def Reached (word : MachineWord) (o : Orderings) (m : Machine N) : Prop :=
  ∃ creator unique,
    Reaches (step word o) (fun _ _ => True) (start creator unique) m

/-- Whatever the orderings are, the count is the number of references. -/
theorem sound_of_reached (few : N < maxRefcount word) (reached : Reached word o m) :
    m.Sound word := by
  obtain ⟨creator, unique, reaches⟩ := reached
  refine reaches.invariant (sound_start word creator unique) ?_
  intro current ⟨t, action⟩ next sound _ stepped
  exact (moved_of_step stepped).sound sound few

end Machine

end BackdropArc.RelaxedMemory
