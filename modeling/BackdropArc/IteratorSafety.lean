import BackdropArc.HeaderAndIter

/-!
# The construction is safe against every iterator

From what a construction does with the answers of an iterator it follows that it
returns exactly if the answers fit the reported length, that it panics where they
do not, and that no way out of it drops anything twice.
-/

namespace BackdropArc

open UnwindingCode

section Outcome

variable {word : MachineWord} {H T : Type}

/-- A call that an iterator over `n` items would have answered otherwise. -/
def Items.Misreports (items : Items T) (n call : Nat) : Prop :=
  call < n ∧ items.next call = .none ∨ n ≤ call ∧ ∃ value, items.next call = .some value

theorem Items.Behaved.not_misreports {items : Items T} {n calls call : Nat}
    (behaved : items.Behaved n calls) (before : call < calls) :
    ¬ items.Misreports n call := by
  have answered := behaved call before
  rintro (⟨inside, ended⟩ | ⟨outside, value, more⟩)
  · rw [if_pos inside] at answered
    obtain ⟨value, reply⟩ := answered
    simp [ended] at reply
  · rw [if_neg (Nat.not_lt_of_le outside), more] at answered
    cases answered

/-- The iterator answers all calls that the construction makes. -/
def Items.Exact (items : Items T) (n : Nat) : Prop :=
  items.Behaved n (callsMade n)

namespace Fails

variable {site : Site word} {items : Items T} {exit : Exit} {s : Making H T}

theorem not_faulty (fails : Fails site items exit s) : ¬ exit.Faulty := by
  cases fails with
  | refused exit reason => cases reason <;> simp [Exit.Faulty]
  | overReported | underReported | iterator => simp [Exit.Faulty]

theorem dropped_nodup (fails : Fails site items exit s) : s.dropped.Nodup := by
  cases fails with
  | refused exit reason =>
      unfold Make.dropHeader
      split <;> simp [Making.drop, Making.start]
  | overReported n s call len behaved inside reply calls dropped => simp [dropped]
  | underReported n s call value len behaved outside needed reply calls dropped => simp [dropped]
  | iterator n s call len behaved needed reply calls dropped => simp [dropped]

theorem panicked (fails : Fails site items exit s) {n call : Nat}
    (len : items.len = some n) (made : call < s.calls)
    (misreports : items.Misreports n call) : ∃ message, exit = .panicked message := by
  cases fails with
  | refused exit reason =>
      have none : (Make.dropHeader exit (.start : Making H T)).calls = 0 := by
        unfold Make.dropHeader
        split <;> rfl
      omega
  | overReported | underReported => exact ⟨_, rfl⟩
  | iterator m s last reported behaved needed reply calls dropped =>
      obtain rfl : m = n := Option.some.inj (reported.symm.trans len)
      by_cases earlier : call < last
      · exact absurd misreports (behaved.not_misreports earlier)
      · obtain rfl : call = last := by omega
        simp [Items.Misreports, reply] at misreports

/-- With memory for the block, only a wrong answer ends the construction early. -/
theorem not_exact (fails : Fails site items exit s) {n : Nat}
    (sized : site.elem.shape.size ≠ 0) (len : items.len = some n)
    (allocates : site.Allocates n) : ¬ items.Exact n := by
  intro answered
  cases fails with
  | refused exit reason =>
      cases reason with
      | sizeZero size => exact sized size
      | len missing => simp [len] at missing
      | layout m panic reported refused | memory m reported refused =>
          obtain rfl : m = n := Option.some.inj (reported.symm.trans len)
          exact refused allocates
  | overReported m s call reported behaved inside reply calls dropped =>
      obtain rfl : m = n := Option.some.inj (reported.symm.trans len)
      exact answered.not_misreports (inside.trans_le (Make.le_callsMade m))
        (Or.inl ⟨inside, reply⟩)
  | underReported m s call value reported behaved outside needed reply calls dropped =>
      obtain rfl : m = n := Option.some.inj (reported.symm.trans len)
      exact answered.not_misreports needed (Or.inr ⟨outside, value, reply⟩)
  | iterator m s call reported behaved needed reply calls dropped =>
      obtain rfl : m = n := Option.some.inj (reported.symm.trans len)
      have answer := answered call needed
      split at answer
      · obtain ⟨value, other⟩ := answer
        simp [reply] at other
      · simp [reply] at answer

/-- The first call that does not fit the length makes the construction panic. -/
theorem panicked_of_first (fails : Fails site items exit s) {n call : Nat}
    (sized : site.elem.shape.size ≠ 0) (len : items.len = some n)
    (allocates : site.Allocates n) (behaved : items.Behaved n call)
    (misreports : items.Misreports n call) : ∃ message, exit = .panicked message := by
  cases fails with
  | refused exit reason =>
      cases reason with
      | sizeZero size => exact absurd size sized
      | len missing => simp [len] at missing
      | layout m panic reported refused | memory m reported refused =>
          obtain rfl : m = n := Option.some.inj (reported.symm.trans len)
          exact absurd allocates refused
  | overReported | underReported => exact ⟨_, rfl⟩
  | iterator m s last reported before needed reply calls dropped =>
      obtain rfl : m = n := Option.some.inj (reported.symm.trans len)
      rcases Nat.lt_trichotomy call last with earlier | rfl | later
      · exact absurd misreports (before.not_misreports earlier)
      · simp [Items.Misreports, reply] at misreports
      · have answer := behaved last later
        split at answer
        · obtain ⟨value, other⟩ := answer
          simp [reply] at other
        · simp [reply] at answer

end Fails

/-- The block holds the header and the items of the first `n` calls. -/
structure Complete (items : Items T) (header : H) (n : Nat) (block : RawBlock H T) :
    Prop where
  count : block.count = 1
  header : block.header = some header
  length : block.slots.length = n
  slots : ∀ i < n, ∃ value, items.next i = .some value ∧
    block.slots[i]? = some (some ⟨i, value⟩)

theorem Writing.complete {items : Items T} {header : H} {n calls : Nat} {s : Making H T}
    (writing : Writing items header n n calls s) (all : n ≤ calls) :
    ∃ block, s.block = some block ∧ Complete items header n block := by
  refine ⟨_, writing.block, rfl, rfl, by simp [Items.written], fun i inside => ?_⟩
  have answered := writing.behaved i (inside.trans_le all)
  rw [if_pos inside] at answered
  obtain ⟨value, reply⟩ := answered
  exact ⟨value, reply, by simp [Items.written, inside, Items.item?_eq reply]⟩

/-- The construction is safe against every iterator.  It never writes outside
the slots or to one slot twice.  If it returns, every slot holds its item and no
later call returned another; it panics after every call that does not fit the
length; and whatever makes it unwind, nothing is dropped twice. -/
theorem from_header_and_iter_safe (site : Site word) (items : Items T) (header : H)
    (sized : site.elem.shape.size ≠ 0) :
    (match Make.fromHeaderAndIter site items header .start with
      | .ok _ s => ∃ n block, items.len = some n ∧ s.block = some block ∧
          Complete items header n block ∧ n < s.calls ∧
            (∀ call < s.calls, n ≤ call → items.next call = .none) ∧ s.dropped = []
      | .error exit s => ¬ exit.Faulty ∧ s.dropped.Nodup ∧
          ∀ n call, items.len = some n → call < s.calls → items.Misreports n call →
            ∃ message, exit = .panicked message) ∧
      ∀ n, items.len = some n → site.Allocates n →
        ((∃ s, Make.fromHeaderAndIter site items header .start = .ok () s) ↔
          items.Exact n) ∧
        ∀ call < callsMade n, items.Behaved n call → items.Misreports n call →
          ∃ message s, Make.fromHeaderAndIter site items header .start =
            .error (.panicked message) s := by
  have spec : Spec _ (Make.fromHeaderAndIter site items header) _ (Fails site items) :=
    Make.fromHeaderAndIter_spec
  have outcome := spec .start rfl
  cases ran : Make.fromHeaderAndIter site items header .start with
  | ok result s =>
      rw [ran] at outcome
      obtain ⟨_, n, _, writing⟩ := outcome
      have all : n < s.calls := by
        rw [writing.calls_eq]
        unfold callsMade
        split <;> omega
      have behaved : items.Behaved n s.calls := by
        rw [writing.calls_eq]
        exact writing.behaved
      refine ⟨?_, fun m len _ => ⟨⟨fun _ => ?_, fun _ => ⟨s, rfl⟩⟩, ?_⟩⟩
      · obtain ⟨block, stored, complete⟩ := writing.complete (Make.le_callsMade n)
        refine ⟨n, block, writing.len, stored, complete, all, fun call made outside => ?_,
          writing.dropped⟩
        have answer := behaved call made
        rwa [if_neg (Nat.not_lt_of_le outside)] at answer
      · obtain rfl : n = m := Option.some.inj (writing.len.symm.trans len)
        exact writing.behaved
      · obtain rfl : n = m := Option.some.inj (writing.len.symm.trans len)
        intro call needed _ misreports
        exact absurd misreports (writing.behaved.not_misreports needed)
  | error exit s =>
      rw [ran] at outcome
      have fails : Fails site items exit s := outcome
      refine ⟨⟨fails.not_faulty, fails.dropped_nodup, fun n call len made misreports =>
        fails.panicked len made misreports⟩,
        fun n len allocates => ⟨⟨?_, fun answered => ?_⟩, ?_⟩⟩
      · rintro ⟨_, returned⟩
        cases returned
      · exact absurd answered (fails.not_exact sized len allocates)
      · intro call _ behaved misreports
        obtain ⟨message, rfl⟩ :=
          fails.panicked_of_first sized len allocates behaved misreports
        exact ⟨message, s, rfl⟩

end Outcome

/-- Bytes without a header on a 64-bit machine, with memory for everything. -/
def byteSite : Site .wide :=
  ⟨wideCount, by decide, .unit, by decide, .u8, fun _ => true⟩

def twoItems : Items Nat :=
  ⟨some 2, fun call => if call < 2 then .some (call + 10) else .none⟩

/-- The construction returns for an iterator that keeps its promise. -/
theorem from_header_and_iter_safe_witness :
    ∃ s, Make.fromHeaderAndIter byteSite twoItems () .start = .ok () s :=
  have promised : twoItems.Exact 2 := by
    intro call _
    split
    · next item => exact ⟨call + 10, if_pos item⟩
    · next exhausted => exact if_neg exhausted
  ((from_header_and_iter_safe byteSite twoItems () (by decide)).2 2 rfl
    ⟨_, rfl, rfl⟩).1.mpr promised

end BackdropArc
