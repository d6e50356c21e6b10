import BackdropArc.ArcAccounting

/-!
# What a step of one thread leaves alone

A step of thread `t` changes at most the heap, the tables and the call of `t`.
The owners of a block outside that share stay as they are, so each invariant
only has to be checked on the share of `t`.
-/

namespace BackdropArc

open GuardedRuns CountedLifecycle

variable {N : Nat} {V S : Type}

namespace Sys

variable {s next : Sys N V S} {t : Fin N} {p : Nat}

/-- The threads other than `t` are where they were. -/
def Others (s next : Sys N V S) (t : Fin N) : Prop :=
  ∀ other, other ≠ t → next.threads other = s.threads other

/-- The references to `p` that a step of `t` can move around. -/
def share (s : Sys N V S) (t : Fin N) (p : Nat) : Nat :=
  s.liveHandles p + (s.threads t).refs p + s.arcsLeft p + s.heap.leakedAt p

theorem others_update {thread : Thread V S}
    (threads : next.threads = Function.update s.threads t thread) :
    Others s next t := by
  intro other different
  rw [threads, Function.update_of_ne different]

theorem sum_of_others (others : Others s next t) (weight : Thread V S → Nat) :
    (∑ x, weight (next.threads x)) + weight (s.threads t) =
      (∑ x, weight (s.threads x)) + weight (next.threads t) := by
  have before := Finset.add_sum_erase Finset.univ
    (fun x => weight (s.threads x)) (Finset.mem_univ t)
  have after := Finset.add_sum_erase Finset.univ
    (fun x => weight (next.threads x)) (Finset.mem_univ t)
  have rest : ∑ x ∈ Finset.univ.erase t, weight (next.threads x) =
      ∑ x ∈ Finset.univ.erase t, weight (s.threads x) :=
    Finset.sum_congr rfl fun x member => by
      rw [others x (Finset.ne_of_mem_erase member)]
  omega

theorem owners_of_others (others : Others s next t) (p : Nat) :
    (next.owners p : Int) - next.share t p = s.owners p - s.share t p := by
  have moved := sum_of_others others (Thread.refs p)
  unfold owners share inFlight
  omega

theorem finishing_of_others (others : Others s next t)
    (same : (next.threads t).op.finishing? = (s.threads t).op.finishing?)
    (p : Nat) (who : Fin N × S) :
    next.Finishing p who ↔ s.Finishing p who := by
  unfold Finishing
  by_cases here : who.1 = t
  · rw [here, same]
  · rw [others _ here]

/-- A claim of sole ownership after the step was there before, or is made by
the handles or the call that the step changed. -/
theorem claims_of_others (others : Others s next t)
    (handles : ∀ key hd, next.handles.get? key = some hd → hd.sole = true →
      s.handles.get? key = some hd ∨ s.Claimed hd.p ∨ next.owners hd.p = 1)
    (op : ∀ p, (next.threads t).op.claim? = some p →
      s.Claimed p ∨ next.owners p = 1)
    (p : Nat) (claimed : next.Claimed p) :
    s.Claimed p ∨ next.owners p = 1 := by
  rcases claimed with ⟨key, hd, found, sole, rfl⟩ | ⟨x, claim⟩
  · rcases handles key hd found sole with before | known
    · exact Or.inl (Or.inl ⟨key, hd, before, sole, rfl⟩)
    · exact known
  · by_cases here : x = t
    · exact op p (here ▸ claim)
    · exact Or.inl (Or.inr ⟨x, others x here ▸ claim⟩)

theorem borrows_of_others {borrow : Borrow} (alive : next.Borrows borrow)
    (others : Others s next t)
    (borrows : next.borrows = s.borrows) (iters : next.iters = s.iters)
    (holds : (next.threads t).Holds borrow → (s.threads t).Holds borrow) :
    s.Borrows borrow := by
  rcases alive with stored | iterated | ⟨x, held⟩
  · exact Or.inl (borrows ▸ stored)
  · exact Or.inr (Or.inl (iters ▸ iterated))
  · refine Or.inr (Or.inr ⟨x, ?_⟩)
    by_cases here : x = t
    · subst here; exact holds held
    · exact others x here ▸ held

theorem Sound.rooted_next (sound : s.Sound)
    (sources : ∀ borrow, next.Borrows borrow →
      s.Borrows borrow ∨ s.Roots borrow)
    (kept : ∀ borrow hd, next.Borrows borrow →
      s.handles.get? borrow.root = some hd → hd.lendable = true →
        next.handles.get? borrow.root = some hd)
    (borrow : Borrow) (alive : next.Borrows borrow) : next.Roots borrow := by
  obtain ⟨hd, found, same, lendable⟩ : s.Roots borrow :=
    (sources borrow alive).elim (sound.rooted borrow) id
  exact ⟨hd, kept borrow hd alive found lendable, same, lendable⟩

/-- A step of one thread that makes no borrow and leaves the handles alone. -/
theorem Sound.rooted_of_others (sound : s.Sound) (others : Others s next t)
    (handles : next.handles = s.handles) (borrows : next.borrows = s.borrows)
    (iters : next.iters = s.iters)
    (holds : ∀ borrow, (next.threads t).Holds borrow → (s.threads t).Holds borrow) :
    ∀ borrow, next.Borrows borrow → next.Roots borrow :=
  sound.rooted_next
    (fun borrow alive =>
      Or.inl (borrows_of_others alive others borrows iters (holds borrow)))
    fun _ _ _ here _ => handles ▸ here

/-- The new operation of a thread borrows nothing. -/
theorem holds_of_setOp {op : Op V S} (threads : next.threads = s.setOp t op)
    (source : op.source? = none) (borrow : Borrow)
    (held : (next.threads t).Holds borrow) : (s.threads t).Holds borrow := by
  rw [threads] at held
  rcases held with current | stacked
  · simp [setOp, source] at current
  · exact Or.inr (by simpa [setOp] using stacked)

/-- A step that only moves ownership around, adds nothing to the history of
any block and leaves every status as it is. -/
theorem Sound.quiet (sound : s.Sound) (others : Others s next t)
    (status : ∀ p, next.heap.status p = s.heap.status p)
    (share : ∀ p, next.share t p = s.share t p)
    (finishing : (next.threads t).op.finishing? = (s.threads t).op.finishing?)
    (trace : ∀ p, next.trace p = s.trace p)
    (rooted : ∀ borrow, next.Borrows borrow → next.Roots borrow)
    (claims : ∀ p, next.Claimed p → s.Claimed p ∨ next.owners p = 1) :
    next.Sound := by
  refine sound.preserved (fun p => ?_) rooted claims
  refine .quiet (status p) ?_ (finishing_of_others others finishing p) (trace p)
  have moved := owners_of_others others p
  have same := share p
  omega

theorem Effect.elsewhere {q : Nat} {after : Status} (others : Others s next t)
    (heap : s.heap.Changes next.heap q after) (different : p ≠ q)
    (share : next.share t p = s.share t p)
    (finishing : ∀ who, next.Finishing p who ↔ s.Finishing p who)
    (trace : next.trace p = s.trace p) : s.Effect next p := by
  have unchanged := heap.status_eq p
  rw [if_neg different] at unchanged
  refine .quiet unchanged ?_ finishing trace
  have moved := owners_of_others others p
  omega

@[simp]
theorem trace_append (s : Sys N V S) (entries : List (Entry N V S)) (p : Nat) :
    ({ s with log := s.log ++ entries } : Sys N V S).trace p =
      s.trace p ++ entries.filterMap (Entry.event? p) := by
  simp [trace]

/-- An event of block `q` is added to the history. -/
theorem filterMap_life (p q : Nat) (event : Event (Fin N × S)) :
    [(.life q event : Entry N V S)].filterMap (Entry.event? p) =
      if q = p then [event] else [] := by
  by_cases here : q = p <;> simp [Entry.event?, here]

/-! ## Moving a handle -/

theorem free_eq_ok {key : Nat} {hd : Handle S} :
    s.free key = .ok hd ↔
      s.handles.get? key = some hd ∧ hd.lent = false ∧
        s.borrowed key = false := by
  unfold free
  constructor
  · intro freed
    obtain ⟨stored, found, rest⟩ := bind_eq_ok.mp freed
    obtain ⟨_, unlent, rest⟩ := bind_eq_ok.mp rest
    obtain ⟨_, unborrowed, result⟩ := bind_eq_ok.mp rest
    obtain rfl : stored = hd := by simpa [pure, Except.pure] using result
    exact ⟨demandSome_eq_ok.mp found, demand_eq_ok.mp unlent,
      demand_eq_ok.mp unborrowed⟩
  · rintro ⟨found, unlent, unborrowed⟩
    simp [demandSome, demand, found, unlent, unborrowed, bind, Except.bind,
      pure, Except.pure]

theorem not_borrowed {key : Nat} (unborrowed : s.borrowed key = false)
    {borrow : Borrow} (alive : s.Borrows borrow) : borrow.root ≠ key := by
  rintro rfl
  unfold borrowed at unborrowed
  simp only [Bool.or_eq_false_iff, decide_eq_false_iff_not, not_exists] at unborrowed
  obtain ⟨⟨borrows, iters⟩, threads⟩ := unborrowed
  rcases alive with ⟨key, found⟩ | ⟨key, iter, found, same⟩ | ⟨x, held⟩
  · have other := SlotTable.any_eq_false borrows found
    simp at other
  · have other := SlotTable.any_eq_false iters found
    simp [same] at other
  · apply threads x
    unfold Thread.borrows
    rcases held with held | ⟨call, member, held⟩
    · simp [held]
    · simp only [Bool.or_eq_true, List.any_eq_true]
      exact Or.inr ⟨call, member, by simp [held]⟩

theorem borrows_of_borrowed {key : Nat} (borrowed : s.borrowed key = true) :
    ∃ borrow, s.Borrows borrow ∧ borrow.root = key := by
  unfold Sys.borrowed at borrowed
  simp only [Bool.or_eq_true, SlotTable.any_eq_true, decide_eq_true_eq] at borrowed
  rcases borrowed with
    (⟨place, borrow, found, root⟩ | ⟨place, iter, found, root⟩) | ⟨x, holds⟩
  · exact ⟨borrow, Or.inl ⟨place, found⟩, root⟩
  · exact ⟨iter.orig, Or.inr (Or.inl ⟨place, iter, found, rfl⟩), root⟩
  · unfold Thread.borrows at holds
    simp only [Bool.or_eq_true, List.any_eq_true, Option.any_eq_true,
      decide_eq_true_eq] at holds
    rcases holds with ⟨borrow, source, root⟩ | ⟨call, member, borrow, source, root⟩
    · exact ⟨borrow, Or.inr (Or.inr ⟨x, Or.inl source⟩), root⟩
    · exact ⟨borrow, Or.inr (Or.inr ⟨x, Or.inr ⟨call, member, source⟩⟩), root⟩

/-- Nothing borrows a handle while a mutable reference into it is in use. -/
theorem Sound.unborrowed_of_lent (sound : s.Sound) {key : Nat} {hd : Handle S}
    (found : s.handles.get? key = some hd) (lent : hd.lent = true) :
    s.borrowed key = false := by
  rw [← Bool.not_eq_true]
  intro borrowed
  obtain ⟨borrow, alive, rfl⟩ := borrows_of_borrowed borrowed
  obtain ⟨stored, here, _, lendable⟩ := sound.rooted borrow alive
  obtain rfl : stored = hd := by simpa [found] using here.symm
  simp [Handle.lendable, lent] at lendable

theorem Sound.roots_of_view (sound : s.Sound) {source : Source N}
    {borrow : Borrow} {kind : RefKind S}
    (viewed : s.view source = some (borrow, kind)) : s.Roots borrow := by
  cases source with
  | handle key =>
      simp only [view, Option.bind_eq_bind, Option.bind_eq_some_iff] at viewed
      obtain ⟨hd, found, rest⟩ := viewed
      cases lent : hd.lent with
      | true => simp [lent] at rest
      | false =>
          simp only [lent, Bool.false_eq_true, if_false, Option.map_eq_some_iff,
            Prod.mk.injEq] at rest
          obtain ⟨_, some, rfl, _⟩ := rest
          exact ⟨hd, found, rfl, by simp [Handle.lendable, lent, some]⟩
  | borrow key =>
      simp only [view, Option.map_eq_some_iff, Prod.mk.injEq] at viewed
      obtain ⟨_, found, rfl, _⟩ := viewed
      exact sound.rooted _ (Or.inl ⟨key, found⟩)
  | transient owner depth =>
      simp only [view] at viewed
      split at viewed
      · next source transient call =>
          simp only [Option.some.injEq, Prod.mk.injEq] at viewed
          obtain ⟨rfl, _⟩ := viewed
          refine sound.rooted _ (Or.inr (Or.inr ⟨owner, Or.inr ?_⟩))
          exact ⟨_, List.mem_of_getElem? call, rfl⟩
      · simp at viewed

/-- A rooted borrow points to a block that is owned and that nobody claims
for himself. -/
theorem Sound.shared_of_roots (sound : s.Sound) {borrow : Borrow}
    (roots : s.Roots borrow) :
    0 < s.owners borrow.p ∧ ¬ s.Claimed borrow.p := by
  obtain ⟨hd, found, same, lendable⟩ := roots
  exact ⟨same ▸ owned_of_stored found, same ▸ sound.not_claimed found lendable⟩

theorem Sound.counted_of_owned (sound : s.Sound) (owned : 0 < s.owners p) :
    s.heap.status p = .counted (s.owners p) := by
  obtain ⟨phase, accounts, _⟩ := sound.accounts p
  obtain ⟨others, _, status, same⟩ := accounts.of_owned owned
  rw [status, same]

/-- Conservation: a count in memory is the number of owners. -/
theorem Sound.owners_of_counted (sound : s.Sound) {count : Nat}
    (counted : s.heap.status p = .counted count) : s.owners p = count := by
  obtain ⟨phase, accounts, _⟩ := sound.accounts p
  exact (accounts.of_counted counted).1

theorem Sound.of_finishing (sound : s.Sound) {who : Fin N × S}
    (pending : s.Finishing p who) :
    s.heap.status p = .counted 0 ∧ s.owners p = 0 := by
  obtain ⟨phase, accounts, _⟩ := sound.accounts p
  obtain rfl := accounts.of_finishing pending
  exact ⟨accounts.1, accounts.2.1⟩

end Sys

end BackdropArc
