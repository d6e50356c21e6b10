import BackdropArc.RelaxedMoves

/-!
# Holders under relaxed memory

Every step rearranges the holders of references in one of a few ways, and
leaves alone what is borrowed: the handle under a clone iterator or a call of
`clone`, and the reference that such a call has counted.
-/

namespace BackdropArc.RelaxedMemory

open GuardedRuns ReleaseHistory

/-- Whether the thread counted down to zero and still has the memory. -/
def Stage.ending : Stage → Nat
  | .dropLoad | .dropSlow => 1
  | .idle | .cloning _ _ _ => 0

namespace Holder

theorem view_le_use (holder : Holder) (v : View Nat) : holder.view ≤ (holder.use v).view :=
  sup_le_sup_left le_sup_left _

theorem le_use (holder : Holder) (v : View Nat) : v ≤ (holder.use v).view :=
  le_sup_right.trans le_sup_right

theorem view_own (kind : Kind) (v : View Nat) : (Holder.mk kind v ⊥).view = v :=
  sup_bot_eq v

end Holder

namespace Machine

variable {N : Nat} {word : MachineWord} {o : Orderings} {m next : Machine N}
  {t : Fin N} {action : Action} {key k : Nat} {holder : Holder} {kind : Kind}

/-- A handle that is not held exclusively. -/
def Lends (holders : SlotTable Holder) (key : Nat) : Prop :=
  ∃ holder, holders.get? key = some holder ∧ holder.kind = .handle false

/-! ## The effects on holders -/

theorem get?_used (found : m.holders.get? key = some holder) :
    (m.used t key holder).holders.get? k =
      if k = key then some (holder.use (m.knows t)) else m.holders.get? k :=
  SlotTable.get?_replace found _ _

theorem get?_keep (found : m.holders.get? key = some holder) :
    (m.keep t key kind).holders.get? k =
      if k = key then some ⟨kind, m.knows t, ⊥⟩ else m.holders.get? k :=
  SlotTable.get?_replace found _ _

theorem references_used (found : m.holders.get? key = some holder) :
    (m.used t key holder).references = m.references := by
  have replaced := SlotTable.weigh_replace Holder.refs found (holder.use (m.knows t))
  have same : (holder.use (m.knows t)).refs = holder.refs := rfl
  simp only [references, used]
  omega

theorem references_keep (t : Fin N) (kind : Kind)
    (found : m.holders.get? key = some holder) :
    (m.keep t key kind).references + holder.refs = m.references + kind.refs := by
  have replaced := SlotTable.weigh_replace Holder.refs found ⟨kind, m.knows t, ⊥⟩
  have owned : Holder.refs ⟨kind, m.knows t, ⊥⟩ = kind.refs := rfl
  simp only [references, keep]
  omega

theorem references_hold (m : Machine N) (t : Fin N) (kind : Kind) :
    (m.hold t kind).references = m.references + kind.refs :=
  SlotTable.weigh_insert _ _ _

theorem references_discard (found : m.holders.get? key = some holder) :
    (m.discard key).references + holder.refs = m.references := by
  have erased := SlotTable.weigh_erase Holder.refs m.holders key
  rw [SlotTable.weighAt_of_found Holder.refs found] at erased
  simp only [references, discard]
  omega

theorem refs_le_references (found : m.holders.get? key = some holder) :
    holder.refs ≤ m.references :=
  SlotTable.le_weigh Holder.refs found

/-! ## How steps rearrange the holders -/

/-- Thread `t` reads a count of one while the memory is still there, and then
knows `v`. -/
def Tested (o : Orderings) (m : Machine N) (t : Fin N) (v : View Nat) : Prop :=
  m.freed = false ∧
    ∃ i, m.count.Readable (m.knows t) i ∧ (m.count.messages i).value = 1 ∧
      (o.count.acquires = true → (m.count.messages i).released ≤ v)

/-- What a step of thread `t`, which then knows `v`, does to the holders and
to the stages of the threads. -/
inductive Rearranged (o : Orderings) (m : Machine N) (t : Fin N) (v : View Nat) :
    SlotTable Holder → (Fin N → Stage) → Prop
  | same (idle : m.stages t = .idle) : Rearranged o m t v m.holders m.stages
  | share {key : Nat} {holder : Holder} {unique : Bool}
      (shares : m.Shares t key holder) (kind : holder.kind = .handle unique) :
      Rearranged o m t v
        (m.holders.replace key (holder.use v)) m.stages
  | own {key : Nat} {holder : Holder} {kind : Kind} (takes : m.Takes t key holder)
      (like : (∃ before after, holder.kind = .handle before ∧ kind = .handle after ∧
          (after = true → before = true ∨ m.Tested o t v)) ∨
        ∃ orig arcsLeft, holder.kind = .iter orig arcsLeft ∧ kind = .iter orig arcsLeft) :
      Rearranged o m t v (m.holders.replace key ⟨kind, v, ⊥⟩) m.stages
  | clone {key old : Nat} {holder : Holder} (shares : m.Shares t key holder)
      (kind : holder.kind = .handle false) (newest : m.count.last < v.seen) :
      Rearranged o m t v
        ((m.holders.replace key (holder.use v)).insert
          ⟨.cloned, v, ⊥⟩)
        (Function.update m.stages t (.cloning key m.holders.nextKey old))
  | iterate {key count : Nat} {holder : Holder} (shares : m.Shares t key holder)
      (kind : holder.kind = .handle false) (newest : m.count.last < v.seen) :
      Rearranged o m t v
        ((m.holders.replace key (holder.use v)).insert
          ⟨.iter key count, v, ⊥⟩) m.stages
  | next {key orig arcsLeft : Nat} {holder : Holder} (takes : m.Takes t key holder)
      (kind : holder.kind = .iter orig arcsLeft) (some : arcsLeft ≠ 0) :
      Rearranged o m t v
        ((m.holders.replace key ⟨.iter orig (arcsLeft - 1), v, ⊥⟩).insert
          ⟨.handle false, v, ⊥⟩) m.stages
  | close {key orig arcsLeft : Nat} {holder source : Holder}
      (takes : m.Takes t key holder) (kind : holder.kind = .iter orig arcsLeft)
      (lender : m.holders.get? orig = some source) :
      Rearranged o m t v
        ((m.holders.replace orig (source.use v)).erase key)
        m.stages
  | discard {key : Nat} {holder : Holder} {unique : Bool}
      (takes : m.Takes t key holder) (kind : holder.kind = .handle unique) :
      Rearranged o m t v (m.holders.erase key) m.stages
  | last {key : Nat} {holder : Holder} {unique : Bool}
      (takes : m.Takes t key holder) (kind : holder.kind = .handle unique) :
      Rearranged o m t v (m.holders.erase key) (Function.update m.stages t .dropLoad)
  | finish {source unit old : Nat} (stage : m.stages t = .cloning source unit old) :
      Rearranged o m t v (m.holders.replace unit ⟨.handle false, v, ⊥⟩)
        (Function.update m.stages t .idle)
  | proceed {stage : Stage} (ending : (m.stages t).ending = 1)
      (after : stage.source? = none) :
      Rearranged o m t v m.holders (Function.update m.stages t stage)

theorem knows_record (m : Machine N) (t : Fin N) (access : Access) :
    (m.record t access).knows t = (m.knows t).after m.accesses.length :=
  Function.update_self _ _ _

theorem knows_load (m : Machine N) (t : Fin N) (ordering : MemoryOrdering) (i : Nat) :
    (m.load t ordering i).knows t = m.count.learn ordering (m.knows t) i :=
  Function.update_self _ _ _

theorem knows_modify (m : Machine N) (t : Fin N) (ordering : MemoryOrdering)
    (change : Nat → Nat) :
    (m.modify t ordering change).knows t = m.count.learnWrite ordering (m.knows t) :=
  Function.update_self _ _ _

theorem last_lt_seen_modify (m : Machine N) (t : Fin N) (ordering : MemoryOrdering)
    (change : Nat → Nat) :
    m.count.last < ((m.modify t ordering change).knows t).seen := by
  rw [knows_modify]
  exact Location.last_lt_seen_learnWrite

/-- Every step rearranges the holders in one of these ways. -/
theorem Moved.rearranged (moved : Moved word o m t action next) :
    Rearranged o m t (next.knows t) next.holders next.stages := by
  cases moved with
  | post idle | receive idle | destroy idle => exact .same idle
  | nextNone takes => exact .same takes.idle
  | read shares kind | cloneManyRetry shares kind | count shares kind =>
      exact .share shares kind
  | write takes kind => exact .own takes (Or.inl ⟨_, _, kind, rfl, fun _ => Or.inl rfl⟩)
  | shareable takes kind =>
      exact .own takes (Or.inl ⟨_, _, kind, rfl, fun _ => Or.inl rfl⟩)
  | tryUnique takes kind readable performs =>
      refine .own takes (Or.inl ⟨_, _, kind, rfl, fun granted => Or.inr ?_⟩)
      refine ⟨performs.alive, _, readable, of_decide_eq_true granted, fun acquires => ?_⟩
      exact (knows_load (m.record t .count) t o.count _).symm ▸
        Location.released_le_learn acquires
  | dropIterRetry takes kind => exact .own takes (Or.inr ⟨_, _, kind, rfl⟩)
  | clone shares kind =>
      exact .clone shares kind (last_lt_seen_modify (m.record t .count) t _ id)
  | cloneMany shares kind =>
      exact .iterate shares kind (last_lt_seen_modify (m.record t .count) t _ id)
  | next takes kind some => exact .next takes kind some
  | dropIterNone takes kind lender => exact .close takes kind lender
  | dropIter takes kind lender => exact .close takes kind lender
  | forgetIter takes kind lender => exact .close takes kind lender
  | drop takes kind => exact .discard takes kind
  | dropLast takes kind => exact .last takes kind
  | forget takes kind => exact .discard takes kind
  | intoInner takes kind => exact .discard takes kind
  | cloned stage => exact .finish stage
  | dropLoad stage => exact .proceed (by rw [stage]; rfl) rfl
  | dropSlow stage => exact .proceed (by rw [stage]; rfl) rfl

/-! ## What is borrowed stays -/

section Lends

variable {holders : SlotTable Holder} {old entry : Holder}

theorem Lends.replace (lends : Lends holders k) (found : holders.get? key = some old)
    (kept : k = key → entry.kind = .handle false) :
    Lends (holders.replace key entry) k := by
  by_cases here : k = key
  · exact ⟨entry, by rw [SlotTable.get?_replace found, if_pos here], kept here⟩
  · obtain ⟨holder, stored, kind⟩ := lends
    exact ⟨holder, by rw [SlotTable.get?_replace found, if_neg here, stored], kind⟩

/-- A shared use leaves every handle what it was. -/
theorem Lends.share (lends : Lends holders k) (found : holders.get? key = some old)
    (v : View Nat) : Lends (holders.replace key (old.use v)) k := by
  refine lends.replace found ?_
  rintro rfl
  obtain ⟨holder, stored, kind⟩ := lends
  rw [found] at stored
  rw [← kind, ← Option.some.inj stored]
  rfl

theorem Lends.insert (lends : Lends holders k) : Lends (holders.insert entry) k := by
  obtain ⟨holder, stored, kind⟩ := lends
  exact ⟨holder, SlotTable.get?_insert_of_found stored _, kind⟩

theorem Lends.erase (lends : Lends holders k) (other : k ≠ key) :
    Lends (holders.erase key) k := by
  obtain ⟨holder, stored, kind⟩ := lends
  exact ⟨holder, by rw [SlotTable.get?_erase, if_neg other, stored], kind⟩

end Lends

theorem borrowed_of_iter {orig arcsLeft : Nat} (found : m.holders.get? key = some holder)
    (kind : holder.kind = .iter orig arcsLeft) : m.Borrowed orig := by
  refine Or.inl (SlotTable.any_eq_true.mpr ⟨key, holder, found, ?_⟩)
  simp [kind, Kind.borrows]

theorem borrowed_of_replace {old entry : Holder} {orig arcsLeft : Nat}
    (stored : m.holders.get? key = some old)
    (like : ∀ {orig arcsLeft}, entry.kind = .iter orig arcsLeft → m.Borrowed orig)
    (found : (m.holders.replace key entry).get? k = some holder)
    (kind : holder.kind = .iter orig arcsLeft) : m.Borrowed orig := by
  rw [SlotTable.get?_replace stored] at found
  split at found
  · cases found
    exact like kind
  · exact borrowed_of_iter found kind

theorem borrowed_of_share {old : Holder} {v : View Nat} {orig arcsLeft : Nat}
    (stored : m.holders.get? key = some old)
    (found : (m.holders.replace key (old.use v)).get? k = some holder)
    (kind : holder.kind = .iter orig arcsLeft) : m.Borrowed orig := by
  refine borrowed_of_replace stored ?_ found kind
  exact fun same => borrowed_of_iter stored same

theorem borrowed_of_cloning {source unit old : Nat}
    (stage : m.stages t = .cloning source unit old) : m.Borrowed source :=
  Or.inr ⟨t, by simp [stage, Stage.source?]⟩

theorem Takes.ne (takes : m.Takes t key holder) (borrowed : m.Borrowed k) : k ≠ key := by
  rintro rfl
  exact takes.free borrowed

/-- Borrowed handles stay in place, and each call of `clone` has a reference of
its own. -/
structure Borrowing (holders : SlotTable Holder) (stages : Fin N → Stage)
    (knows : Fin N → View Nat) : Prop where
  lender : ∀ {key holder orig arcsLeft}, holders.get? key = some holder →
    holder.kind = .iter orig arcsLeft → Lends holders orig
  source : ∀ {t source unit old}, stages t = .cloning source unit old →
    Lends holders source
  unit : ∀ {t source unit old}, stages t = .cloning source unit old →
    ∃ holder, holders.get? unit = some holder ∧ holder.kind = .cloned ∧
      holder.view ≤ knows t
  distinct : ∀ {t u source source' unit old old'},
    stages t = .cloning source unit old → stages u = .cloning source' unit old' → t = u

section Rearranged

variable {v : View Nat} {holders : SlotTable Holder} {stages : Fin N → Stage}
  {knows : Fin N → View Nat}

/-- A borrowed handle stays one that is not held exclusively. -/
theorem Rearranged.lends (rearranged : Rearranged o m t v holders stages)
    (borrowing : Borrowing m.holders m.stages m.knows) (borrowed : m.Borrowed k)
    (lends : Lends m.holders k) : Lends holders k := by
  cases rearranged with
  | same | proceed => exact lends
  | share shares => exact lends.share shares.found v
  | own takes => exact lends.replace takes.found fun here => absurd here (takes.ne borrowed)
  | clone shares | iterate shares =>
      exact (lends.share shares.found v).insert
  | next takes =>
      exact (lends.replace takes.found fun here => absurd here (takes.ne borrowed)).insert
  | close takes kind lender =>
      exact (lends.share lender v).erase (takes.ne borrowed)
  | discard takes | last takes => exact lends.erase (takes.ne borrowed)
  | finish stage =>
      obtain ⟨holder, found, _⟩ := borrowing.unit stage
      exact lends.replace found fun _ => rfl

/-- A clone iterator was there before, or borrows from a handle that stays. -/
theorem Rearranged.iter_origin (rearranged : Rearranged o m t v holders stages)
    (borrowing : Borrowing m.holders m.stages m.knows)
    (found : holders.get? k = some holder) {orig arcsLeft : Nat}
    (kind : holder.kind = .iter orig arcsLeft) :
    m.Borrowed orig ∨ Lends holders orig := by
  cases rearranged with
  | same | proceed => exact Or.inl (borrowed_of_iter found kind)
  | share shares =>
      exact Or.inl (borrowed_of_share shares.found found kind)
  | own takes like =>
      refine Or.inl (borrowed_of_replace takes.found ?_ found kind)
      intro orig arcsLeft iter
      rcases like with ⟨_, _, _, handle, _⟩ | ⟨_, _, before, after⟩
      · exact absurd (handle.symm.trans iter) (by simp)
      · exact borrowed_of_iter takes.found (before.trans (after.symm.trans iter))
  | clone shares =>
      rcases SlotTable.get?_of_insert found with rfl | found
      · simp at kind
      · exact Or.inl (borrowed_of_share shares.found found kind)
  | iterate shares handle =>
      rcases SlotTable.get?_of_insert found with rfl | found
      · cases kind
        have lends : Lends m.holders _ := ⟨_, shares.found, handle⟩
        exact Or.inr (lends.share shares.found v).insert
      · exact Or.inl (borrowed_of_share shares.found found kind)
  | next takes iter =>
      rcases SlotTable.get?_of_insert found with rfl | found
      · simp at kind
      · refine Or.inl (borrowed_of_replace takes.found ?_ found kind)
        intro orig arcsLeft left
        cases left
        exact borrowed_of_iter takes.found iter
  | close takes iter lender =>
      exact Or.inl (borrowed_of_share lender (SlotTable.get?_of_erase found) kind)
  | discard | last =>
      exact Or.inl (borrowed_of_iter (SlotTable.get?_of_erase found) kind)
  | finish stage =>
      obtain ⟨unit, stored, _⟩ := borrowing.unit stage
      exact Or.inl (borrowed_of_replace stored (by simp) found kind)

/-- A call of `clone` was there before, or has just counted its reference. -/
theorem Rearranged.cloning_origin (rearranged : Rearranged o m t v holders stages)
    {u : Fin N} {source unit old : Nat} (stage : stages u = .cloning source unit old) :
    m.stages u = .cloning source unit old ∨
      u = t ∧ unit = m.holders.nextKey ∧ Lends holders source ∧
        holders.get? unit = some ⟨.cloned, v, ⊥⟩ := by
  have updated {after : Stage}
      (stage : Function.update m.stages t after u = .cloning source unit old) :
      u = t ∧ after = .cloning source unit old ∨
        m.stages u = .cloning source unit old := by
    by_cases here : u = t
    · subst here
      exact Or.inl ⟨rfl, by simpa using stage⟩
    · exact Or.inr (by rwa [Function.update_of_ne here] at stage)
  cases rearranged with
  | same | share | own | iterate | next | close | discard => exact Or.inl stage
  | clone shares kind =>
      rcases updated stage with ⟨here, same⟩ | before
      · cases same
        have lends : Lends m.holders _ := ⟨_, shares.found, kind⟩
        refine Or.inr ⟨here, rfl, (lends.share shares.found v).insert, ?_⟩
        rw [SlotTable.get?_insert, SlotTable.nextKey_replace, if_pos rfl]
      · exact Or.inl before
  | last | finish =>
      rcases updated stage with ⟨_, same⟩ | before
      · cases same
      · exact Or.inl before
  | proceed _ after =>
      rcases updated stage with ⟨_, same⟩ | before
      · simp [same, Stage.source?] at after
      · exact Or.inl before

theorem Borrowing.lends (borrowing : Borrowing m.holders m.stages m.knows)
    (borrowed : m.Borrowed k) : Lends m.holders k := by
  rcases borrowed with iter | ⟨u, source⟩
  · obtain ⟨key, holder, found, borrows⟩ := SlotTable.any_eq_true.mp iter
    cases kind : holder.kind with
    | handle | cloned => simp [kind, Kind.borrows] at borrows
    | iter orig arcsLeft =>
        obtain rfl : orig = k := by simpa [kind, Kind.borrows] using borrows
        exact borrowing.lender found kind
  · cases stage : m.stages u with
    | idle | dropLoad | dropSlow => simp [stage, Stage.source?] at source
    | cloning orig unit old =>
        obtain rfl : orig = k := by simpa [stage, Stage.source?] using source
        exact borrowing.source stage

/-- The reference of a call of `clone` is left alone by every other step. -/
theorem Rearranged.cloned_stays (rearranged : Rearranged o m t v holders stages)
    (borrowing : Borrowing m.holders m.stages m.knows)
    (found : m.holders.get? k = some holder) (kind : holder.kind = .cloned)
    (foreign : ∀ source old, m.stages t ≠ .cloning source k old) :
    holders.get? k = some holder := by
  have other {key : Nat} {stored : Holder} (at_key : m.holders.get? key = some stored)
      (different : stored.kind ≠ .cloned) : k ≠ key := by
    rintro rfl
    rw [found] at at_key
    exact different (Option.some.inj at_key ▸ kind)
  have replaced {key : Nat} {stored entry : Holder}
      (at_key : m.holders.get? key = some stored) (different : stored.kind ≠ .cloned) :
      (m.holders.replace key entry).get? k = some holder := by
    rw [SlotTable.get?_replace at_key, if_neg (other at_key different), found]
  have erased {key : Nat} {stored : Holder} {table : SlotTable Holder}
      (at_key : m.holders.get? key = some stored) (different : stored.kind ≠ .cloned)
      (kept : table.get? k = some holder) :
      (table.erase key).get? k = some holder := by
    rw [SlotTable.get?_erase, if_neg (other at_key different), kept]
  cases rearranged with
  | same | proceed => exact found
  | share shares handle => exact replaced shares.found (by simp [handle])
  | own takes like =>
      refine replaced takes.found ?_
      rcases like with ⟨_, _, before, _⟩ | ⟨_, _, before, _⟩ <;> simp [before]
  | clone shares handle | iterate shares handle =>
      exact SlotTable.get?_insert_of_found (replaced shares.found (by simp [handle])) _
  | next takes iter =>
      exact SlotTable.get?_insert_of_found (replaced takes.found (by simp [iter])) _
  | close takes iter lender =>
      obtain ⟨stored, at_orig, handle⟩ := borrowing.lender takes.found iter
      rw [lender] at at_orig
      cases at_orig
      exact erased takes.found (by simp [iter]) (replaced lender (by simp [handle]))
  | discard takes handle | last takes handle =>
      exact erased takes.found (by simp [handle]) found
  | finish stage =>
      obtain ⟨stored, at_unit, _⟩ := borrowing.unit stage
      rw [SlotTable.get?_replace at_unit, if_neg, found]
      rintro rfl
      exact foreign _ _ stage

/-- A thread between the `fetch_add` of `clone` and its check finishes the call
with its next step. -/
theorem Rearranged.not_cloning (rearranged : Rearranged o m t v holders stages)
    {source unit old source' unit' old' : Nat}
    (stage : m.stages t = .cloning source unit old) :
    stages t ≠ .cloning source' unit' old' := by
  cases rearranged with
  | same idle => simp [idle] at stage
  | share shares | clone shares | iterate shares => simp [shares.idle] at stage
  | own takes | next takes | close takes | discard takes | last takes =>
      simp [takes.idle] at stage
  | finish => simp
  | proceed ending => simp [stage, Stage.ending] at ending

/-- Every step keeps what is borrowed. -/
theorem Rearranged.borrowing (rearranged : Rearranged o m t v holders stages)
    (borrowing : Borrowing m.holders m.stages m.knows)
    (grows : ∀ u, m.knows u ≤ knows u) (known : knows t = v) :
    Borrowing holders stages knows where
  lender found kind := by
    rcases rearranged.iter_origin borrowing found kind with borrowed | lends
    · exact rearranged.lends borrowing borrowed (borrowing.lends borrowed)
    · exact lends
  source stage := by
    rcases rearranged.cloning_origin stage with before | ⟨_, _, lends, _⟩
    · exact rearranged.lends borrowing (borrowed_of_cloning before)
        (borrowing.source before)
    · exact lends
  unit {u source unit old} stage := by
    rcases rearranged.cloning_origin stage with before | ⟨rfl, rfl, _, found⟩
    · obtain ⟨holder, found, kind, view_le⟩ := borrowing.unit before
      refine ⟨holder, ?_, kind, view_le.trans (grows u)⟩
      by_cases here : u = t
      · subst here
        exact absurd stage (rearranged.not_cloning before)
      · refine rearranged.cloned_stays borrowing found kind ?_
        intro source' old' stage'
        exact here (borrowing.distinct before stage')
    · refine ⟨_, found, rfl, ?_⟩
      simp [Holder.view, known]
  distinct {u w source source' unit old old'} first second := by
    rcases rearranged.cloning_origin first with before | ⟨atFirst, fresh, _⟩ <;>
      rcases rearranged.cloning_origin second with before' | ⟨atSecond, fresh', _⟩
    · exact borrowing.distinct before before'
    · obtain ⟨holder, found, _⟩ := borrowing.unit before
      rw [fresh', SlotTable.get?_nextKey] at found
      cases found
    · obtain ⟨holder, found, _⟩ := borrowing.unit before'
      rw [fresh, SlotTable.get?_nextKey] at found
      cases found
    · rw [atFirst, atSecond]

end Rearranged

/-! ## The knowledge of threads -/

theorem knows_le_update {w : View Nat} (grows : m.knows t ≤ w) (u : Fin N) :
    m.knows u ≤ Function.update m.knows t w u := by
  by_cases here : u = t
  · subst here
    simpa using grows
  · rw [Function.update_of_ne here]

theorem knows_le_record (access : Access) (u : Fin N) :
    m.knows u ≤ (m.record t access).knows u :=
  knows_le_update (View.le_after _ _) u

theorem knows_le_load (ordering : MemoryOrdering) (i : Nat) (u : Fin N) :
    m.knows u ≤ (m.load t ordering i).knows u :=
  knows_le_update Location.le_learn u

theorem knows_le_modify (ordering : MemoryOrdering) (change : Nat → Nat) (u : Fin N) :
    m.knows u ≤ (m.modify t ordering change).knows u :=
  knows_le_update Location.le_learnWrite u

/-- No step makes a thread forget. -/
theorem Moved.knows_le (moved : Moved word o m t action next) (u : Fin N) :
    m.knows u ≤ next.knows u := by
  have recorded (access : Access) := knows_le_record (m := m) (t := t) access u
  have loaded (ordering : MemoryOrdering) (i : Nat) :=
    (recorded .count).trans (knows_le_load (t := t) ordering i u)
  have modified (ordering : MemoryOrdering) :=
    (recorded .count).trans (knows_le_modify (t := t) ordering id u)
  cases moved with
  | post | nextNone | next | dropIterNone | forgetIter | shareable | forget | cloned |
      dropSlow => exact le_rfl
  | receive => exact knows_le_update le_sup_left u
  | read => exact recorded .read
  | write => exact recorded .write
  | intoInner | destroy => exact recorded .free
  | cloneManyRetry | dropIterRetry | count | tryUnique | dropLoad => exact loaded _ _
  | clone | cloneMany | dropIter | drop | dropLast => exact modified _


end Machine

end BackdropArc.RelaxedMemory
