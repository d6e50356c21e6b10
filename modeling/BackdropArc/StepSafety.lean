import BackdropArc.StepSoundness

/-!
# No step touches a block that is gone

In a sound state every step of every thread either succeeds, is refused by
the borrow checker, or aborts the process at one of the overflow checks of
the crate.  No step accesses a block that was disposed of, and no debug
assertion fails.
-/

namespace BackdropArc

open GuardedRuns CountedLifecycle

variable {N : Nat} {V S : Type}

namespace Sys

variable {s next : Sys N V S} {t : Fin N} {word : MachineWord}

theorem Sound.avoids_access (sound : s.Sound) {p : Nat} (owned : 0 < s.owners p) :
    Avoids Stop.Faulty (s.heap.access p) :=
  Heap.avoids_access (sound.counted_of_owned owned)

theorem Sound.owned_of_view (sound : s.Sound) {source : Source N}
    {borrow : Borrow} {kind : RefKind S}
    (viewed : demandSome (s.view source) Stop.refused = .ok (borrow, kind)) :
    0 < s.owners borrow.p :=
  (sound.shared_of_roots (sound.roots_of_view (demandSome_eq_ok.mp viewed))).1

theorem owned_of_thread {p : Nat} (refs : 0 < (s.threads t).refs p) :
    0 < s.owners p := by
  have all := refs_le_inFlight s t p
  unfold owners
  omega

theorem owned_of_op {p : Nat} (refs : 0 < (s.threads t).op.refs p) :
    0 < s.owners p :=
  owned_of_thread (lt_of_lt_of_le refs (op_refs_le _ p))

theorem owned_of_frame {call : UniqueCall} {ptr : Pointer S}
    (member : .valueClone call ptr ∈ (s.threads t).stack) : 0 < s.owners ptr.p := by
  have frame := List.single_le_sum (l := (s.threads t).stack.map (Call.refs ptr.p))
    (fun _ _ => Nat.zero_le _) _ (List.mem_map_of_mem member)
  simp only [Call.refs, pointer_refs_self] at frame
  apply owned_of_thread (t := t)
  unfold Thread.refs
  omega

theorem owned_of_stack {call : UniqueCall} {ptr : Pointer S} {stack : List (Call S)}
    (suspended : (s.threads t).stack = .valueClone call ptr :: stack) :
    0 < s.owners ptr.p :=
  owned_of_frame (suspended ▸ List.mem_cons_self)

theorem assertUnique_of_counted {ptr : Pointer S}
    (counted : s.heap.status ptr.p = .counted 1) : s.assertUnique ptr = .ok () := by
  unfold Sys.assertUnique
  rw [Heap.load_eq_ok.mpr counted]
  rfl

theorem grant_succeeds (t : Fin N) (call : UniqueCall) {ptr : Pointer S}
    (counted : s.heap.status ptr.p = .counted 1) :
    ∃ next, s.grant t call ptr = .ok next := by
  have unique := assertUnique_of_counted counted
  cases call with
  | getMut | makeMut | offsetMakeMut => exact ⟨_, rfl⟩
  | getUnique | tryAsUnique | mustBeUnique | makeUnique | tryUnique | tryUnwrap
  | unwrapOrClone => exact ⟨_, bind_eq_ok.mpr ⟨(), unique, rfl⟩⟩

theorem finish_succeeds (t : Fin N) {rest : Rest V S}
    (claims : ∀ p, rest.claim? = some p → s.heap.status p = .counted 1) :
    ∃ next, s.finish t rest = .ok next := by
  cases rest with
  | done | value | unwind => exact ⟨_, rfl⟩
  | grant call ptr => exact grant_succeeds t call (claims ptr.p rfl)

/-- A block claimed for the end of the call still has one owner after the
call changed another block. -/
theorem Sound.claim_elsewhere (sound : s.Sound) {p q : Nat} {heap : Heap V S}
    {after : Status} (changes : s.heap.Changes heap q after)
    (claim : (s.threads t).op.claim? = some p) (different : p ≠ q) :
    heap.status p = .counted 1 := by
  have single := sound.sole p (Or.inr ⟨t, claim⟩)
  rw [changes.status_eq, if_neg different,
    sound.counted_of_owned (by omega), single]

theorem Sound.dropLoad_succeeds (sound : s.Sound) {ptr : Pointer S} {rest : Rest V S}
    (op : (s.threads t).op = .dropLoad ptr rest) :
    s.advance word t =
      .ok { s with threads := s.setOp t (.dropSlow ptr rest) } := by
  have pending : s.Finishing ptr.p (t, ptr.strategy) := by rw [Finishing, op]; rfl
  simp only [Sys.advance, op]
  exact bind_eq_ok.mpr ⟨0, Heap.load_eq_ok.mpr (sound.of_finishing pending).1, rfl⟩

theorem Sound.dropSlow_succeeds (sound : s.Sound) (word : MachineWord) {ptr : Pointer S}
    {rest : Rest V S} (op : (s.threads t).op = .dropSlow ptr rest) :
    ∃ heap next, s.heap.giveAway ptr.p (.backdropped ptr.strategy) = .ok heap ∧
      finish { s with
          heap := heap
          log := s.log ++ [.life ptr.p (.finalize (t, ptr.strategy))] } t rest =
        .ok next ∧ s.advance word t = .ok next := by
  have pending : s.Finishing ptr.p (t, ptr.strategy) := by rw [Finishing, op]; rfl
  obtain ⟨counted, unowned⟩ := sound.of_finishing pending
  obtain ⟨heap, given⟩ :=
    Heap.giveAway_of_counted (.backdropped ptr.strategy) counted
  obtain ⟨_, changes⟩ := Heap.giveAway_spec rfl given
  have claims (p : Nat) (claim : rest.claim? = some p) :
      heap.status p = .counted 1 := by
    have claimed : (s.threads t).op.claim? = some p := by rw [op]; exact claim
    refine sound.claim_elsewhere changes claimed ?_
    rintro rfl
    have single := sound.sole _ (Or.inr ⟨t, claimed⟩)
    omega
  obtain ⟨next, finished⟩ := finish_succeeds t (s := { s with
      heap := heap
      log := s.log ++ [.life ptr.p (.finalize (t, ptr.strategy))] }) claims
  refine ⟨heap, next, given, finished, ?_⟩
  simp only [Sys.advance, op]
  exact bind_eq_ok.mpr ⟨_, given, finished⟩

theorem Sound.avoids_advance (sound : s.Sound) :
    Avoids Stop.Faulty (s.advance word t) := by
  cases op : (s.threads t).op with
  | idle => simp only [Sys.advance, op]; exact avoids_error Stop.not_faulty_refused
  | cloning source form strategy =>
      have held : (s.threads t).Holds source := Or.inl (by rw [op]; rfl)
      obtain ⟨owned, _⟩ :=
        sound.shared_of_roots (sound.rooted _ (Or.inr (Or.inr ⟨t, held⟩)))
      simp only [Sys.advance, op]
      exact Avoids.bind ((sound.avoids_access owned).bind fun _ _ => avoids_ok rfl)
        fun _ _ => avoids_ok rfl
  | cloned source form strategy old =>
      simp only [Sys.advance, op]
      exact Avoids.bind (avoids_demand Stop.not_faulty_aborted) fun _ _ => avoids_ok rfl
  | tested call ptr loaded =>
      have owned : 0 < s.owners ptr.p := owned_of_op (t := t) (by simp [op, Op.refs])
      simp only [Sys.advance, op]
      split
      · next one =>
          have single := sound.sole ptr.p (Or.inr ⟨t, by simp [op, Op.claim?, one]⟩)
          have counted : s.heap.status ptr.p = .counted 1 := by
            rw [sound.counted_of_owned owned, single]
          obtain ⟨next, granted⟩ := grant_succeeds t call counted
          exact avoids_ok granted
      · cases call with
        | mustBeUnique =>
            exact Avoids.bind ((sound.avoids_access owned).bind fun _ _ => avoids_ok rfl)
              fun _ _ => avoids_ok rfl
        | getMut | getUnique | tryAsUnique | tryUnique | tryUnwrap | unwrapOrClone
        | makeMut | makeUnique | offsetMakeMut => exact avoids_ok rfl
  | moving ptr =>
      have owned : 0 < s.owners ptr.p := owned_of_op (t := t) (by simp [op, Op.refs])
      have single := sound.sole ptr.p (Or.inr ⟨t, by rw [op]; rfl⟩)
      have access := sound.avoids_access owned
      simp only [Sys.advance, op]
      have counted : s.heap.status ptr.p = .counted 1 := by
        rw [sound.counted_of_owned owned, single]
      refine (avoids_ok (assertUnique_of_counted counted)).bind fun _ _ => ?_
      exact (access.bind fun _ _ => avoids_ok rfl).bind fun _ _ =>
          (access.bind fun _ _ => avoids_ok rfl).bind fun _ _ => avoids_ok rfl
  | dropping ptr rest =>
      have owned : 0 < s.owners ptr.p := owned_of_op (t := t) (by
        simp only [op, Op.refs, pointer_refs_self]
        omega)
      simp only [Sys.advance, op]
      refine ((sound.avoids_access owned).bind fun _ _ => avoids_ok rfl).bind ?_
      rintro ⟨old, heap⟩ subtracted
      obtain ⟨_, changes⟩ := Heap.fetchSub_spec subtracted
      dsimp only
      split
      · have claims (p : Nat) (claim : rest.claim? = some p) :
            heap.status p = .counted 1 := by
          have claimed : (s.threads t).op.claim? = some p := by rw [op]; exact claim
          refine sound.claim_elsewhere changes claimed ?_
          -- The call would own the claimed block twice.
          rintro rfl
          have single := sound.sole _ (Or.inr ⟨t, claimed⟩)
          have owed := refs_of_rest_claim claim
          have calls := refs_le_inFlight s t ptr.p
          simp only [Thread.refs, op, Op.refs, pointer_refs_self] at calls
          unfold owners at single
          omega
        obtain ⟨next, finished⟩ :=
          finish_succeeds t (s := { s with heap := heap }) claims
        exact avoids_ok finished
      · exact avoids_ok rfl
  | dropLoad ptr rest => exact avoids_ok (sound.dropLoad_succeeds op)
  | dropSlow ptr rest =>
      obtain ⟨_, _, _, _, advanced⟩ := sound.dropSlow_succeeds word op
      exact avoids_ok advanced

/-! Inside a call every test is an access or an assertion, so a call that is not
faulty goes on. -/

theorem access_goes_on (heap : Heap V S) (p : Nat) :
    Avoids (fun stop => ¬ stop.Faulty) (heap.access p) := by
  unfold Heap.access
  split
  · split
    · exact avoids_ok rfl
    · exact avoids_error (by simp [Stop.Faulty])
  · exact avoids_error (by simp [Stop.Faulty])

theorem load_goes_on (heap : Heap V S) (p : Nat) :
    Avoids (fun stop => ¬ stop.Faulty) (heap.load p) :=
  (access_goes_on heap p).bind fun _ _ => avoids_ok rfl

theorem assertUnique_goes_on (s : Sys N V S) (ptr : Pointer S) :
    Avoids (fun stop => ¬ stop.Faulty) (s.assertUnique ptr) :=
  (load_goes_on s.heap ptr.p).bind fun _ _ => avoids_demand (by simp [Stop.Faulty])

theorem grant_goes_on (s : Sys N V S) (t : Fin N) (call : UniqueCall) (ptr : Pointer S) :
    Avoids (fun stop => ¬ stop.Faulty) (s.grant t call ptr) := by
  cases call with
  | getMut | makeMut | offsetMakeMut => exact avoids_ok rfl
  | getUnique | tryAsUnique | mustBeUnique | makeUnique | tryUnique | tryUnwrap
  | unwrapOrClone => exact (assertUnique_goes_on s ptr).bind fun _ _ => avoids_ok rfl

theorem decline_goes_on (s : Sys N V S) (t : Fin N) (call : UniqueCall) (ptr : Pointer S) :
    Avoids (fun stop => ¬ stop.Faulty) (s.decline t call ptr) := by
  cases call with
  | mustBeUnique => exact (load_goes_on s.heap ptr.p).bind fun _ _ => avoids_ok rfl
  | getMut | getUnique | tryAsUnique | tryUnique | tryUnwrap | unwrapOrClone | makeMut
  | makeUnique | offsetMakeMut => exact avoids_ok rfl

theorem finish_goes_on (s : Sys N V S) (t : Fin N) (rest : Rest V S) :
    Avoids (fun stop => ¬ stop.Faulty) (s.finish t rest) := by
  cases rest with
  | grant call ptr => exact grant_goes_on s t call ptr
  | done | value | unwind => exact avoids_ok rfl

/-- No call in progress waits for another thread: from a sound state its next
step succeeds, unless it is the check of `clone`. -/
theorem Sound.advance_succeeds (sound : s.Sound) (word : MachineWord)
    (busy : (s.threads t).op ≠ .idle)
    (unchecked : ∀ source form strategy old,
      (s.threads t).op ≠ .cloned source form strategy old) :
    ∃ next, s.advance word t = .ok next := by
  have goes : Avoids (fun stop => ¬ stop.Faulty) (s.advance word t) := by
    have access := access_goes_on s.heap
    cases op : (s.threads t).op with
    | idle => exact absurd op busy
    | cloned source form strategy old => exact absurd op (unchecked source form strategy old)
    | cloning source form strategy =>
        simp only [Sys.advance, op]
        exact ((access source.p).bind fun _ _ => avoids_ok rfl).bind fun _ _ => avoids_ok rfl
    | tested call ptr loaded =>
        simp only [Sys.advance, op]
        split
        · exact grant_goes_on s t call ptr
        · exact decline_goes_on s t call ptr
    | moving ptr =>
        simp only [Sys.advance, op]
        refine (assertUnique_goes_on s ptr).bind fun _ _ => ?_
        exact ((access ptr.p).bind fun _ _ => avoids_ok rfl).bind fun _ _ =>
          ((access ptr.p).bind fun _ _ => avoids_ok rfl).bind fun _ _ => avoids_ok rfl
    | dropping ptr rest =>
        simp only [Sys.advance, op]
        refine ((access ptr.p).bind fun _ _ => avoids_ok rfl).bind fun released _ => ?_
        split
        · exact finish_goes_on _ t rest
        · exact avoids_ok rfl
    | dropLoad ptr rest =>
        simp only [Sys.advance, op]
        exact (load_goes_on s.heap ptr.p).bind fun _ _ => avoids_ok rfl
    | dropSlow ptr rest =>
        simp only [Sys.advance, op]
        exact ((access ptr.p).bind fun _ _ => avoids_ok rfl).bind fun _ _ =>
          finish_goes_on _ t rest
  cases result : s.advance word t with
  | ok next => exact ⟨next, rfl⟩
  | error stop =>
      exact absurd (sound.avoids_advance stop result) (goes stop result)

theorem avoids_free (key : Nat) : Avoids Stop.Faulty (s.free key) :=
  (avoids_demandSome Stop.not_faulty_refused).bind fun _ _ =>
    (avoids_demand Stop.not_faulty_refused).bind fun _ _ =>
      (avoids_demand Stop.not_faulty_refused).bind fun _ _ => avoids_ok rfl

theorem Sound.avoids_view (sound : s.Sound) {source : Source N} {Value : Type}
    {rest : Borrow × RefKind S → Except Stop Value}
    (avoids : ∀ borrow kind, 0 < s.owners borrow.p →
      Avoids Stop.Faulty (rest (borrow, kind))) :
    Avoids Stop.Faulty (demandSome (s.view source) Stop.refused >>= rest) := by
  refine (avoids_demandSome Stop.not_faulty_refused).bind ?_
  rintro ⟨borrow, kind⟩ viewed
  exact avoids borrow kind (sound.owned_of_view viewed)

/-- The overflow checks of the crate abort the process. -/
theorem Sound.avoids_fetchUpdate (sound : s.Sound) {p : Nat}
    (owned : 0 < s.owners p) {update : Nat → Except Stop Nat}
    (aborts : ∀ count, Avoids Stop.Faulty (update count)) :
    Avoids Stop.Faulty (s.heap.fetchUpdate update p) :=
  (sound.avoids_access owned).bind fun _ _ => (aborts _).bind fun _ _ => avoids_ok rfl

theorem avoids_cloneManyUpdate (inc count : Nat) :
    Avoids Stop.Faulty (cloneManyUpdate word inc count) := by
  unfold cloneManyUpdate
  split
  · exact avoids_error Stop.not_faulty_aborted
  · split
    · exact avoids_error Stop.not_faulty_aborted
    · exact avoids_ok rfl

theorem avoids_dropIterUpdate (arcsLeft count : Nat) :
    Avoids Stop.Faulty (dropIterUpdate arcsLeft count) := by
  unfold dropIterUpdate
  split
  · exact avoids_error Stop.not_faulty_aborted
  · exact avoids_ok rfl

theorem avoids_unwind : Avoids Stop.Faulty (s.unwind t) := by
  unfold Sys.unwind
  split
  all_goals first
    | exact avoids_ok rfl
    | exact avoids_error Stop.not_faulty_refused

theorem avoids_cloneReturns (data : V) : Avoids Stop.Faulty (s.cloneReturns t data) := by
  unfold Sys.cloneReturns
  split
  all_goals first
    | exact avoids_ok rfl
    | exact avoids_error Stop.not_faulty_refused

theorem Sound.avoids_call (sound : s.Sound) (act : Act N V S) :
    Avoids Stop.Faulty (s.call word t act) := by
  have refused := Stop.not_faulty_refused
  cases act with
  | new | newUnique | endBorrow => exact avoids_ok rfl
  | borrow source => exact sound.avoids_view fun _ _ _ => avoids_ok rfl
  | read source | count source =>
      exact sound.avoids_view fun _ _ owned =>
        ((sound.avoids_access owned).bind fun _ _ => avoids_ok rfl).bind
          fun _ _ => avoids_ok rfl
  | clone source call | enter source call =>
      exact sound.avoids_view fun _ _ _ =>
        (avoids_demandSome refused).bind fun _ _ => avoids_ok rfl
  | cloneMany source count =>
      refine sound.avoids_view fun borrow kind owned => ?_
      cases kind with
      | arc strategy =>
          exact (sound.avoids_fetchUpdate owned (avoids_cloneManyUpdate count)).bind
            fun _ _ => avoids_ok rfl
      | offsetArc | unionFirst | unionSecond | arcBorrow => exact avoids_error refused
  | next key =>
      refine (avoids_demandSome refused).bind fun iter _ => ?_
      split <;> exact avoids_ok rfl
  | cloneIter key | forgetIter key =>
      exact (avoids_demandSome refused).bind fun _ _ => avoids_ok rfl
  | dropIter key =>
      refine (avoids_demandSome refused).bind fun iter found => ?_
      split
      · exact avoids_ok rfl
      · have reserved := sound.arcsLeft_lt_owners (demandSome_eq_ok.mp found)
        exact (sound.avoids_fetchUpdate (by omega)
          (avoids_dropIterUpdate iter.arcsLeft)).bind fun _ _ => avoids_ok rfl
  | leave =>
      simp only [Sys.call]
      split
      · exact avoids_ok rfl
      · exact avoids_error refused
  | unwind => exact avoids_unwind
  | convert key conversion =>
      exact (avoids_free key).bind fun _ _ =>
        (avoids_demandSome refused).bind fun _ _ => avoids_ok rfl
  | drop key | intoInner key =>
      exact (avoids_free key).bind fun _ _ =>
        (avoids_demand refused).bind fun _ _ => avoids_ok rfl
  | forget key => exact (avoids_free key).bind fun _ _ => avoids_ok rfl
  | unique call key =>
      refine (avoids_free key).bind fun hd freed => (avoids_demand refused).bind fun _ _ => ?_
      have owned := owned_of_stored (free_eq_ok.mp freed).1
      exact ((sound.avoids_access owned).bind fun _ _ => avoids_ok rfl).bind
        fun _ _ => avoids_ok rfl
  | readMut key | write key data =>
      refine (avoids_demandSome refused).bind fun hd found =>
        (avoids_demand refused).bind fun _ _ => ?_
      have owned := owned_of_stored (demandSome_eq_ok.mp found)
      exact ((sound.avoids_access owned).bind fun _ _ => avoids_ok rfl).bind
        fun _ _ => avoids_ok rfl
  | endGrant key =>
      exact (avoids_demandSome refused).bind fun _ _ =>
        (avoids_demand refused).bind fun _ _ => avoids_ok rfl
  | readClone =>
      simp only [Sys.call]
      split
      · next suspended =>
          exact ((sound.avoids_access (owned_of_stack suspended)).bind
            fun _ _ => avoids_ok rfl).bind fun _ _ => avoids_ok rfl
      · exact avoids_error refused
  | cloneReturns data => exact avoids_cloneReturns data
  | advance => exact avoids_error refused

/-- No step from a sound state is faulty: neither a use after free nor a
failed assertion. -/
theorem Sound.avoids_step (sound : s.Sound) (word : MachineWord)
    (move : Fin N × Act N V S) :
    Avoids Stop.Faulty (step word s move) := by
  unfold step
  split
  · exact sound.avoids_advance
  · exact sound.avoids_call _
  · exact avoids_error Stop.not_faulty_refused

/-- Dropping an iterator gives back what it reserves, never the last
reference, and passes its own overflow check. -/
theorem Sound.dropIter_spec (sound : s.Sound) (word : MachineWord) {key : Nat}
    {iter : ArcCloneIter S}
    (idle : (s.threads t).op = .idle) (found : s.iters.get? key = some iter) :
    ∃ count next, s.heap.status iter.orig.p = .counted count ∧
      iter.arcsLeft < count ∧ step word s (t, .dropIter key) = .ok next ∧
      next.heap.status iter.orig.p = .counted (count - iter.arcsLeft) := by
  have reserved := sound.arcsLeft_lt_owners found
  have counted := sound.counted_of_owned (p := iter.orig.p) (by omega)
  refine ⟨s.owners iter.orig.p, ?_⟩
  by_cases spent : iter.arcsLeft = 0
  · refine ⟨{ s with iters := s.iters.erase key }, counted, reserved, ?_, ?_⟩
    · simp [step, idle, Sys.call, demandSome, found, spent, bind, Except.bind, pure,
        Except.pure]
    · simpa [spent] using counted
  · obtain ⟨block, accessed, same⟩ := Heap.access_of_counted counted
    have updated : s.heap.fetchUpdate (dropIterUpdate iter.arcsLeft) iter.orig.p =
        .ok (s.heap.set iter.orig.p
          { block with count := block.count - iter.arcsLeft }) := by
      have enough : ¬ block.count < iter.arcsLeft := by omega
      simp [Heap.fetchUpdate, accessed, dropIterUpdate, enough, bind, Except.bind,
        pure, Except.pure]
    refine ⟨{ s with
      heap := s.heap.set iter.orig.p
        { block with count := block.count - iter.arcsLeft }
      iters := s.iters.erase key }, counted, reserved, ?_, ?_⟩
    · simp [step, idle, Sys.call, demandSome, found, spent, updated, bind, Except.bind,
        pure, Except.pure]
    · obtain ⟨old, new, before, computed, changes⟩ := Heap.fetchUpdate_spec updated
      have old_eq : old = s.owners iter.orig.p := by simpa [counted] using before.symm
      have new_eq : old - iter.arcsLeft = new := by
        have enough : ¬ old < iter.arcsLeft := by omega
        simpa [dropIterUpdate, enough] using computed
      rw [changes.status_eq, if_pos rfl, ← new_eq, old_eq]

end Sys

end BackdropArc
