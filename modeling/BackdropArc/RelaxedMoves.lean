import BackdropArc.RelaxedMemory

/-!
# What the steps of the relaxed-memory machine do

Each step that succeeds was allowed by the borrow rules, found the memory
still there, and changed the state in the way listed here.
-/

namespace BackdropArc.RelaxedMemory

open GuardedRuns ReleaseHistory

namespace Machine

variable {N : Nat}

/-- Thread `t` may use a shared reference to what is under `key`. -/
structure Shares (m : Machine N) (t : Fin N) (key : Nat) (holder : Holder) : Prop where
  found : m.holders.get? key = some holder
  idle : m.stages t = .idle
  owned_le : holder.owned ≤ m.knows t

/-- Thread `t` may use what is under `key` exclusively. -/
structure Takes (m : Machine N) (t : Fin N) (key : Nat) (holder : Holder) : Prop where
  found : m.holders.get? key = some holder
  idle : m.stages t = .idle
  view_le : holder.view ≤ m.knows t
  free : ¬ m.Borrowed key

/-- The access neither comes after the end of the memory nor races. -/
structure Performs (m : Machine N) (t : Fin N) (access : Access) : Prop where
  alive : m.freed = false
  ordered : m.Ordered t access

variable {word : MachineWord} {o : Orderings} {m next : Machine N} {t : Fin N}
  {key : Nat} {holder : Holder} {access : Access}

theorem pure_eq_ok {α : Type} {value result : α} :
    (pure value : Except Fault α) = .ok result ↔ value = result :=
  ⟨Except.ok.inj, congrArg Except.ok⟩

theorem borrow_eq_ok : m.borrow t key = .ok holder ↔ m.Shares t key holder := by
  simp only [borrow, bind_eq_ok, demandSome_eq_ok, demand_eq_ok]
  constructor
  · rintro ⟨_, found, _, ⟨idle, owned⟩, result⟩
    cases result
    exact ⟨found, idle, owned⟩
  · rintro ⟨found, idle, owned⟩
    exact ⟨holder, found, (), ⟨idle, owned⟩, rfl⟩

theorem take_eq_ok : m.take t key = .ok holder ↔ m.Takes t key holder := by
  simp only [take, bind_eq_ok, demandSome_eq_ok, demand_eq_ok]
  constructor
  · rintro ⟨_, found, _, ⟨idle, view, free⟩, result⟩
    cases result
    exact ⟨found, idle, view, free⟩
  · rintro ⟨found, idle, view, free⟩
    exact ⟨holder, found, (), ⟨idle, view, free⟩, rfl⟩

theorem perform_eq_ok :
    m.perform t access = .ok next ↔
      m.Performs t access ∧ m.record t access = next := by
  simp only [perform, bind_eq_ok, demand_eq_ok]
  constructor
  · rintro ⟨_, alive, _, ordered, result⟩
    cases result
    exact ⟨⟨alive, ordered⟩, rfl⟩
  · rintro ⟨⟨alive, ordered⟩, rfl⟩
    exact ⟨(), alive, (), ordered, rfl⟩

theorem borrowArc_eq_ok :
    m.borrowArc t key = .ok holder ↔
      m.Shares t key holder ∧ holder.kind = .handle false := by
  simp only [borrowArc, bind_eq_ok, borrow_eq_ok, demand_eq_ok]
  constructor
  · rintro ⟨_, shares, _, kind, result⟩
    cases result
    exact ⟨shares, kind⟩
  · rintro ⟨shares, kind⟩
    exact ⟨holder, shares, (), kind, rfl⟩

theorem closure_eq_ok {α : Type} {result : Except Stop α} {value : α} :
    closure result = .ok value ↔ result = .ok value := by
  cases result <;> simp [closure, Except.mapError]

theorem takeIter_eq_ok {orig arcsLeft : Nat} {source : Holder} :
    m.takeIter t key = .ok (orig, arcsLeft, source) ↔
      ∃ holder, m.Takes t key holder ∧ holder.kind = .iter orig arcsLeft ∧
        m.holders.get? orig = some source := by
  simp only [takeIter, bind_eq_ok, take_eq_ok]
  constructor
  · rintro ⟨holder, takes, result⟩
    cases kind : holder.kind with
    | handle unique => simp [kind] at result
    | cloned => simp [kind] at result
    | iter orig' arcsLeft' =>
        simp only [kind, bind_eq_ok, demandSome_eq_ok] at result
        obtain ⟨source', found, result⟩ := result
        cases result
        exact ⟨holder, takes, kind, found⟩
  · rintro ⟨holder, takes, kind, found⟩
    refine ⟨holder, takes, ?_⟩
    simp only [kind, found, demandSome]
    rfl

/-- The state after `clone` has counted the new reference. -/
def cloneCounted (word : MachineWord) (o : Orderings) (m : Machine N) (t : Fin N)
    (key : Nat) (holder : Holder) : Machine N :=
  ((((m.record t .count).modify t o.clone (word.wrappingAdd · 1)).used t key
    holder).hold t .cloned).setStage t
      (.cloning key m.holders.nextKey m.count.newest.value)

/-- The state after the `fetch_sub` of `drop`. -/
def dropCounted (word : MachineWord) (o : Orderings) (m : Machine N) (t : Fin N)
    (key : Nat) : Machine N :=
  ((m.record t .count).modify t o.dropSub (word.wrappingSub · 1)).discard key

/-- The steps of thread `t`, each with its guards and its result. -/
inductive Moved (word : MachineWord) (o : Orderings) (m : Machine N) (t : Fin N) :
    Action → Machine N → Prop
  | post (idle : m.stages t = .idle) :
      Moved word o m t .post { m with posted := m.posted ++ [m.knows t] }
  | receive {i : Nat} {view : View Nat} (idle : m.stages t = .idle)
      (found : m.posted[i]? = some view) :
      Moved word o m t (.receive i)
        { m with knows := Function.update m.knows t (m.knows t ⊔ view) }
  | read {key : Nat} {holder : Holder} {unique : Bool}
      (shares : m.Shares t key holder) (kind : holder.kind = .handle unique)
      (performs : m.Performs t .read) :
      Moved word o m t (.read key) ((m.record t .read).used t key holder)
  | write {key : Nat} {holder : Holder} (takes : m.Takes t key holder)
      (kind : holder.kind = .handle true) (performs : m.Performs t .write) :
      Moved word o m t (.write key) ((m.record t .write).keep t key (.handle true))
  | clone {key : Nat} {holder : Holder} (shares : m.Shares t key holder)
      (kind : holder.kind = .handle false) (performs : m.Performs t .count) :
      Moved word o m t (.clone key) (m.cloneCounted word o t key holder)
  | cloneManyRetry {key count i : Nat} {holder : Holder}
      (shares : m.Shares t key holder) (kind : holder.kind = .handle false)
      (readable : m.count.Readable (m.knows t) i) (performs : m.Performs t .count) :
      Moved word o m t (.cloneManyRetry key count i)
        (((m.record t .count).load t o.iterNewFetch i).used t key holder)
  | cloneMany {key count val : Nat} {holder : Holder}
      (shares : m.Shares t key holder) (kind : holder.kind = .handle false)
      (performs : m.Performs t .count)
      (computed : cloneManyUpdate word count m.count.newest.value = .ok val) :
      Moved word o m t (.cloneMany key count)
        ((((m.record t .count).modify t o.iterNewSet fun _ => val).used t key
          holder).hold t (.iter key count))
  | nextNone {key orig : Nat} {holder : Holder} (takes : m.Takes t key holder)
      (kind : holder.kind = .iter orig 0) :
      Moved word o m t (.next key) m
  | next {key orig arcsLeft : Nat} {holder : Holder} (takes : m.Takes t key holder)
      (kind : holder.kind = .iter orig arcsLeft) (some : arcsLeft ≠ 0) :
      Moved word o m t (.next key)
        ((m.keep t key (.iter orig (arcsLeft - 1))).hold t (.handle false))
  | dropIterRetry {key orig arcsLeft i : Nat} {holder : Holder}
      (takes : m.Takes t key holder) (kind : holder.kind = .iter orig arcsLeft)
      (readable : m.count.Readable (m.knows t) i) (performs : m.Performs t .count) :
      Moved word o m t (.dropIterRetry key i)
        (((m.record t .count).load t o.iterDropFetch i).keep t key
          (.iter orig arcsLeft))
  | dropIterNone {key orig : Nat} {holder source : Holder}
      (takes : m.Takes t key holder) (kind : holder.kind = .iter orig 0)
      (lender : m.holders.get? orig = some source) :
      Moved word o m t (.dropIter key) ((m.used t orig source).discard key)
  | dropIter {key orig arcsLeft val : Nat} {holder source : Holder}
      (takes : m.Takes t key holder) (kind : holder.kind = .iter orig arcsLeft)
      (lender : m.holders.get? orig = some source) (some : arcsLeft ≠ 0)
      (performs : m.Performs t .count)
      (computed : dropIterUpdate arcsLeft m.count.newest.value = .ok val) :
      Moved word o m t (.dropIter key)
        ((((m.record t .count).modify t o.iterDropSet fun _ => val).used t orig
          source).discard key)
  | forgetIter {key orig arcsLeft : Nat} {holder source : Holder}
      (takes : m.Takes t key holder) (kind : holder.kind = .iter orig arcsLeft)
      (lender : m.holders.get? orig = some source) :
      Moved word o m t (.forgetIter key)
        { (m.used t orig source).discard key with leaked := m.leaked + arcsLeft }
  | count {key i : Nat} {holder : Holder} (shares : m.Shares t key holder)
      (kind : holder.kind = .handle false)
      (readable : m.count.Readable (m.knows t) i) (performs : m.Performs t .count) :
      Moved word o m t (.count key i)
        (((m.record t .count).load t o.count i).used t key holder)
  | tryUnique {key i : Nat} {holder : Holder} (takes : m.Takes t key holder)
      (kind : holder.kind = .handle false)
      (readable : m.count.Readable (m.knows t) i) (performs : m.Performs t .count) :
      Moved word o m t (.tryUnique key i)
        (((m.record t .count).load t o.count i).keep t key
          (.handle ((m.count.messages i).value = 1)))
  | shareable {key : Nat} {holder : Holder} (takes : m.Takes t key holder)
      (kind : holder.kind = .handle true) :
      Moved word o m t (.shareable key) (m.keep t key (.handle false))
  | drop {key : Nat} {holder : Holder} {unique : Bool} (takes : m.Takes t key holder)
      (kind : holder.kind = .handle unique) (performs : m.Performs t .count)
      (more : m.count.newest.value ≠ 1) :
      Moved word o m t (.drop key) (m.dropCounted word o t key)
  | dropLast {key : Nat} {holder : Holder} {unique : Bool}
      (takes : m.Takes t key holder) (kind : holder.kind = .handle unique)
      (performs : m.Performs t .count) (last : m.count.newest.value = 1) :
      Moved word o m t (.drop key) ((m.dropCounted word o t key).setStage t .dropLoad)
  | forget {key : Nat} {holder : Holder} {unique : Bool}
      (takes : m.Takes t key holder) (kind : holder.kind = .handle unique) :
      Moved word o m t (.forget key) { m.discard key with leaked := m.leaked + 1 }
  | intoInner {key : Nat} {holder : Holder} (takes : m.Takes t key holder)
      (kind : holder.kind = .handle true) (performs : m.Performs t .free) :
      Moved word o m t (.intoInner key)
        { (m.record t .free).discard key with freed := true }
  | destroy {view : View Nat} (idle : m.stages t = .idle)
      (given : m.backdropped = some view) (view_le : view ≤ m.knows t)
      (performs : m.Performs t .free) :
      Moved word o m t .destroy
        { m.record t .free with backdropped := none, freed := true }
  | cloned {i source unit old : Nat} (stage : m.stages t = .cloning source unit old)
      (below : old ≤ maxRefcount word) :
      Moved word o m t (.advance i) ((m.keep t unit (.handle false)).setStage t .idle)
  | dropLoad {i : Nat} (stage : m.stages t = .dropLoad)
      (readable : m.count.Readable (m.knows t) i) (performs : m.Performs t .count) :
      Moved word o m t (.advance i)
        (((m.record t .count).load t o.dropLoad i).setStage t .dropSlow)
  | dropSlow {i : Nat} (stage : m.stages t = .dropSlow) :
      Moved word o m t (.advance i)
        { m.setStage t .idle with backdropped := some (m.knows t) }

private theorem handle_cases (holder : Holder)
    (kind : holder.kind = .handle false ∨ holder.kind = .handle true) :
    ∃ unique, holder.kind = .handle unique := by
  rcases kind with kind | kind
  · exact ⟨false, kind⟩
  · exact ⟨true, kind⟩

/-- Every step that succeeds is one of those listed. -/
theorem moved_of_step {action : Action}
    (stepped : step word o m (t, action) = .ok next) :
    Moved word o m t action next := by
  cases action with
  | post =>
      simp only [step, Machine.post, pure_eq_ok, bind_eq_ok, demand_eq_ok] at stepped
      obtain ⟨_, idle, rfl⟩ := stepped
      exact .post idle
  | receive i =>
      simp only [step, Machine.receive, pure_eq_ok, bind_eq_ok, demand_eq_ok,
        demandSome_eq_ok] at stepped
      obtain ⟨_, idle, view, found, rfl⟩ := stepped
      exact .receive idle found
  | read key =>
      simp only [step, Machine.read, pure_eq_ok, bind_eq_ok, demand_eq_ok, borrow_eq_ok,
        perform_eq_ok] at stepped
      obtain ⟨holder, shares, _, kind, _, ⟨performs, rfl⟩, rfl⟩ := stepped
      obtain ⟨unique, kind⟩ := handle_cases holder kind
      exact .read shares kind performs
  | write key =>
      simp only [step, Machine.write, pure_eq_ok, bind_eq_ok, demand_eq_ok, take_eq_ok,
        perform_eq_ok] at stepped
      obtain ⟨holder, takes, _, kind, _, ⟨performs, rfl⟩, rfl⟩ := stepped
      exact .write takes kind performs
  | clone key =>
      simp only [step, Machine.clone, pure_eq_ok, bind_eq_ok, borrowArc_eq_ok,
        perform_eq_ok] at stepped
      obtain ⟨holder, ⟨shares, kind⟩, _, ⟨performs, rfl⟩, rfl⟩ := stepped
      exact .clone shares kind performs
  | cloneManyRetry key count i =>
      simp only [step, Machine.cloneManyRetry, pure_eq_ok, bind_eq_ok, borrowArc_eq_ok,
        demand_eq_ok, perform_eq_ok] at stepped
      obtain ⟨holder, ⟨shares, kind⟩, _, readable, _, ⟨performs, rfl⟩, _, _, rfl⟩ :=
        stepped
      exact .cloneManyRetry shares kind readable performs
  | cloneMany key count =>
      simp only [step, Machine.cloneMany, pure_eq_ok, bind_eq_ok, borrowArc_eq_ok,
        closure_eq_ok, perform_eq_ok] at stepped
      obtain ⟨holder, ⟨shares, kind⟩, _, ⟨performs, rfl⟩, val, computed, rfl⟩ :=
        stepped
      exact .cloneMany shares kind performs computed
  | next key =>
      simp only [step, Machine.next, bind_eq_ok] at stepped
      obtain ⟨⟨orig, arcsLeft, source⟩, taken, result⟩ := stepped
      obtain ⟨holder, takes, kind, _⟩ := takeIter_eq_ok.mp taken
      split at result
      · next none =>
          cases result
          obtain rfl : arcsLeft = 0 := none
          exact .nextNone takes kind
      · next some =>
          cases result
          exact .next takes kind some
  | dropIterRetry key i =>
      simp only [step, Machine.dropIterRetry, pure_eq_ok, bind_eq_ok, demand_eq_ok,
        perform_eq_ok] at stepped
      obtain ⟨⟨orig, arcsLeft, source⟩, taken, _, _, _, readable, _,
        ⟨performs, rfl⟩, _, _, rfl⟩ := stepped
      obtain ⟨holder, takes, kind, _⟩ := takeIter_eq_ok.mp taken
      exact .dropIterRetry takes kind readable performs
  | dropIter key =>
      simp only [step, Machine.dropIter, bind_eq_ok] at stepped
      obtain ⟨⟨orig, arcsLeft, source⟩, taken, result⟩ := stepped
      obtain ⟨holder, takes, kind, lender⟩ := takeIter_eq_ok.mp taken
      split at result
      · next none =>
          cases result
          obtain rfl : arcsLeft = 0 := none
          exact .dropIterNone takes kind lender
      · next some =>
          simp only [pure_eq_ok, bind_eq_ok, perform_eq_ok,
            closure_eq_ok] at result
          obtain ⟨_, ⟨performs, rfl⟩, val, computed, rfl⟩ := result
          exact .dropIter takes kind lender some performs computed
  | forgetIter key =>
      simp only [step, Machine.forgetIter, pure_eq_ok, bind_eq_ok] at stepped
      obtain ⟨⟨orig, arcsLeft, source⟩, taken, rfl⟩ := stepped
      obtain ⟨holder, takes, kind, lender⟩ := takeIter_eq_ok.mp taken
      exact .forgetIter takes kind lender
  | count key i =>
      simp only [step, Machine.loadCount, pure_eq_ok, bind_eq_ok, borrowArc_eq_ok,
        demand_eq_ok, perform_eq_ok] at stepped
      obtain ⟨holder, ⟨shares, kind⟩, _, readable, _, ⟨performs, rfl⟩, rfl⟩ := stepped
      exact .count shares kind readable performs
  | tryUnique key i =>
      simp only [step, Machine.tryUnique, pure_eq_ok, bind_eq_ok, take_eq_ok, demand_eq_ok,
        perform_eq_ok] at stepped
      obtain ⟨holder, takes, _, kind, _, readable, _, ⟨performs, rfl⟩, rfl⟩ := stepped
      exact .tryUnique takes kind readable performs
  | shareable key =>
      simp only [step, Machine.shareable, pure_eq_ok, bind_eq_ok, take_eq_ok,
        demand_eq_ok] at stepped
      obtain ⟨holder, takes, _, kind, rfl⟩ := stepped
      exact .shareable takes kind
  | drop key =>
      simp only [step, Machine.drop, bind_eq_ok, take_eq_ok, demand_eq_ok,
        perform_eq_ok] at stepped
      obtain ⟨holder, takes, _, kind, _, ⟨performs, rfl⟩, result⟩ := stepped
      obtain ⟨unique, kind⟩ := handle_cases holder kind
      split at result
      · next more =>
          cases result
          exact .drop takes kind performs more
      · next last =>
          cases result
          exact .dropLast takes kind performs (not_not.mp last)
  | forget key =>
      simp only [step, Machine.forget, pure_eq_ok, bind_eq_ok, take_eq_ok,
        demand_eq_ok] at stepped
      obtain ⟨holder, takes, _, kind, rfl⟩ := stepped
      obtain ⟨unique, kind⟩ := handle_cases holder kind
      exact .forget takes kind
  | intoInner key =>
      simp only [step, Machine.intoInner, pure_eq_ok, bind_eq_ok, take_eq_ok, demand_eq_ok,
        perform_eq_ok] at stepped
      obtain ⟨holder, takes, _, kind, _, ⟨performs, rfl⟩, rfl⟩ := stepped
      exact .intoInner takes kind performs
  | destroy =>
      simp only [step, Machine.destroy, pure_eq_ok, bind_eq_ok, demandSome_eq_ok, demand_eq_ok,
        perform_eq_ok] at stepped
      obtain ⟨view, given, _, ⟨idle, view_le⟩, _, ⟨performs, rfl⟩, rfl⟩ := stepped
      exact .destroy idle given view_le performs
  | advance i =>
      cases stage : m.stages t with
      | idle => simp [step, Machine.advance, stage] at stepped
      | cloning source unit old =>
          simp only [step, Machine.advance, pure_eq_ok, stage, bind_eq_ok, demand_eq_ok] at stepped
          obtain ⟨_, below, rfl⟩ := stepped
          exact .cloned stage below
      | dropLoad =>
          simp only [step, Machine.advance, pure_eq_ok, stage, bind_eq_ok, demand_eq_ok,
            perform_eq_ok] at stepped
          obtain ⟨_, readable, _, ⟨performs, rfl⟩, rfl⟩ := stepped
          exact .dropLoad stage readable performs
      | dropSlow =>
          simp only [step, Machine.advance, pure_eq_ok, stage] at stepped
          cases stepped
          exact .dropSlow stage

end Machine

end BackdropArc.RelaxedMemory
