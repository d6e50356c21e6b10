import BackdropArc.UserSteps

/-!
# Steps inside a call keep the accounts

A call of the crate is a sequence of atomic steps: the increment and its
check, a uniqueness test and what follows from it, the decrement, the load and
the disposal of a destructor.  Each of them preserves the invariant, whatever
the other threads did in between.
-/

namespace BackdropArc

open GuardedRuns CountedLifecycle

variable {N : Nat} {V S : Type}

namespace Sys

variable {s next : Sys N V S} {t : Fin N} {p : Nat}

/-- No addition to a count of this state wraps around. -/
def Roomy (word : MachineWord) (s : Sys N V S) : Prop :=
  ∀ p count, s.heap.status p = .counted count → count + 1 < word.modulus

/-- The next `fetch_add` of thread `t` does not wrap around. -/
def RoomFor (word : MachineWord) (s : Sys N V S) (t : Fin N) : Prop :=
  ∀ source form strategy count, (s.threads t).op = .cloning source form strategy →
    s.heap.status source.p = .counted count → count + 1 < word.modulus

/-- Every count of this state is a value of the machine word. -/
def Fits (word : MachineWord) (s : Sys N V S) : Prop :=
  ∀ p count, s.heap.status p = .counted count → count < word.modulus

theorem Roomy.fits {word : MachineWord} (roomy : s.Roomy word) : s.Fits word := by
  intro p count counted
  have room := roomy p count counted
  omega

theorem Roomy.roomFor {word : MachineWord} (roomy : s.Roomy word) (t : Fin N) :
    s.RoomFor word t :=
  fun source _ _ count _ => roomy source.p count

theorem others_setOp {op : Op V S} (threads : next.threads = s.setOp t op) :
    Others s next t :=
  others_update threads

/-- `clone` between its entry and its check: the `fetch_add`. -/
theorem Sound.fetchAdd (sound : s.Sound) {word : MachineWord}
    {source : Borrow} {form : SharedForm} {strategy : S} {old : Nat} {heap : Heap V S}
    (op : (s.threads t).op = .cloning source form strategy)
    (room : old + 1 < word.modulus)
    (added : s.heap.fetchAdd word source.p = .ok (old, heap)) :
    ({ s with
      heap := heap
      threads := s.setOp t (.cloned source form strategy old) } : Sys N V S).Sound := by
  obtain ⟨counted, changes⟩ := Heap.fetchAdd_spec added
  rw [Nat.mod_eq_of_lt room] at changes
  have held : (s.threads t).Holds source := Or.inl (by rw [op]; rfl)
  obtain ⟨owned, unclaimed⟩ :=
    sound.shared_of_roots (sound.rooted _ (Or.inr (Or.inr ⟨t, held⟩)))
  generalize next_eq : ({ s with
      heap := heap
      threads := s.setOp t (.cloned source form strategy old) } : Sys N V S) = next
  have others : Others s next t := others_setOp (by subst next_eq; rfl)
  have share (p : Nat) : next.share t p =
      s.share t p + if source.p = p then 1 else 0 := by
    subst next_eq
    simp only [Sys.share, liveHandles, arcsLeft, Thread.refs, setOp,
      Function.update_self, op, Op.refs, changes.leakedAt_eq]
    omega
  have finishing (p : Nat) (who : Fin N × S) :
      next.Finishing p who ↔ s.Finishing p who := by
    apply finishing_of_others others
    subst next_eq
    simp [setOp, op, Op.finishing?]
  have owners := owners_of_others others source.p
  rw [share, if_pos rfl] at owners
  subst next_eq
  refine sound.at_block others changes ?_ ?_ ?_ ?_
  · refine .acquire old 1 counted ?_ (by omega) unclaimed owned (finishing _) rfl
    rw [changes.status_eq, if_pos rfl]
  · intro p different
    refine ⟨?_, finishing p, rfl⟩
    rw [share p, if_neg (Ne.symm different), Nat.add_zero]
  · refine sound.rooted_of_others others rfl rfl rfl fun borrow held => ?_
    rcases held with current | stacked
    · refine Or.inl ?_
      simpa [setOp, op, Op.source?] using current
    · exact Or.inr (by simpa [setOp] using stacked)
  · refine claims_of_others others (fun _ _ found _ => Or.inl found) fun p claim => ?_
    simp [setOp, Op.claim?] at claim

/-- A call hands over the references it still owes and ends, waits for user
code, or goes on to move the data out.  `claim` is the block of which it knows
that it has a single owner. -/
structure Settles (s next : Sys N V S) (t : Fin N) (owed : Nat → Nat)
    (claim : Option Nat) : Prop where
  heap : next.heap = s.heap
  borrows : next.borrows = s.borrows
  iters : next.iters = s.iters
  others : Others s next t
  holds : ∀ borrow, (next.threads t).Holds borrow →
    (s.threads t).Holds borrow
  finishing : (next.threads t).op.finishing? = none
  refs : ∀ p, next.liveHandles p + (next.threads t).refs p =
    s.liveHandles p + owed p + ((s.threads t).stack.map (Call.refs p)).sum
  claimsOp : ∀ p, (next.threads t).op.claim? = some p → claim = some p
  claimsHandles : ∀ key hd, next.handles.get? key = some hd → hd.sole = true →
    s.handles.get? key = some hd ∨ claim = some hd.p
  kept : ∀ key hd, s.handles.get? key = some hd →
    next.handles.get? key = some hd
  trace : ∀ p, next.trace p = s.trace p

theorem settles_give {hd : Handle S} {claim : Option Nat}
    (claims : hd.sole = true → claim = some hd.p) (answer : Answer V) :
    Settles s (s.give t hd answer) t (fun p => hd.refs p) claim where
  heap := rfl
  borrows := rfl
  iters := rfl
  others := others_setOp rfl
  holds borrow held := by
    rcases held with current | stacked
    · simp [give, setOp, Op.source?] at current
    · exact Or.inr (by simpa [give, setOp] using stacked)
  finishing := by simp [give, setOp, Op.finishing?]
  refs p := by
    simp only [give, liveHandles, SlotTable.weigh_insert, setOp,
      Function.update_self, Thread.refs, op_refs_idle]
    omega
  claimsOp p claimed := by simp [give, setOp, Op.claim?] at claimed
  claimsHandles key other stored sole := by
    rcases SlotTable.get?_of_insert stored with rfl | stored
    · exact Or.inr (claims sole)
    · exact Or.inl stored
  kept _ _ found := SlotTable.get?_insert_of_found found hd
  trace p := by simp [give, trace, List.filterMap_cons]

theorem settles_setOp {op : Op V S} {claim : Option Nat} {owed : Nat → Nat}
    (source : op.source? = none) (finishing : op.finishing? = none)
    (refs : ∀ p, op.refs p = owed p)
    (claims : ∀ p, op.claim? = some p → claim = some p) :
    Settles s { s with threads := s.setOp t op } t owed claim where
  heap := rfl
  borrows := rfl
  iters := rfl
  others := others_setOp rfl
  holds borrow held := by
    rcases held with current | stacked
    · simp [setOp, source] at current
    · exact Or.inr (by simpa [setOp] using stacked)
  finishing := by simp [setOp, finishing]
  refs p := by
    simp only [liveHandles, setOp, Function.update_self, Thread.refs, refs]
    omega
  claimsOp p claimed := claims p (by simpa [setOp] using claimed)
  claimsHandles _ _ stored _ := Or.inl stored
  kept _ _ found := found
  trace _ := rfl

theorem Settles.logged {owed : Nat → Nat} {claim : Option Nat}
    (settles : Settles s next t owed claim) (answer : Answer V) :
    Settles s { next with log := next.log ++ [.returned t answer] } t owed claim where
  heap := settles.heap
  borrows := settles.borrows
  iters := settles.iters
  others := settles.others
  holds := settles.holds
  finishing := settles.finishing
  refs := settles.refs
  claimsOp := settles.claimsOp
  claimsHandles := settles.claimsHandles
  kept := settles.kept
  trace p := by
    rw [← settles.trace p]
    simp [List.filterMap_cons]

theorem settles_grant {call : UniqueCall} {ptr : Pointer S}
    (granted : s.grant t call ptr = .ok next) :
    Settles s next t (fun p => ptr.refs p) (some ptr.p) := by
  cases call with
  | getMut | makeMut | offsetMakeMut =>
      obtain rfl := Except.ok.inj granted
      exact settles_give (fun _ => rfl) _
  | getUnique | tryAsUnique | mustBeUnique | makeUnique | tryUnique =>
      obtain ⟨_, _, result⟩ := bind_eq_ok.mp granted
      obtain rfl := Except.ok.inj result
      exact settles_give (fun _ => rfl) _
  | tryUnwrap | unwrapOrClone =>
      obtain ⟨_, _, result⟩ := bind_eq_ok.mp granted
      obtain rfl := Except.ok.inj result
      exact settles_setOp rfl rfl (fun _ => rfl) fun _ claim => claim

theorem settles_decline {call : UniqueCall} {ptr : Pointer S}
    (declined : s.decline t call ptr = .ok next) :
    Settles s next t (fun p => ptr.refs p) none := by
  have notSole : (ptr.handle call.form).sole = true → none = some ptr.p := by
    cases call <;> simp [Pointer.handle, UniqueCall.form, Handle.sole]
  cases call with
  | getMut | getUnique | tryAsUnique | tryUnique | tryUnwrap =>
      obtain rfl := Except.ok.inj declined
      exact settles_give notSole _
  | mustBeUnique =>
      obtain ⟨_, _, result⟩ := bind_eq_ok.mp declined
      obtain rfl := Except.ok.inj result
      exact settles_give notSole _
  | unwrapOrClone | makeMut | makeUnique | offsetMakeMut =>
      obtain rfl := Except.ok.inj declined
      exact {
        heap := rfl
        borrows := rfl
        iters := rfl
        others := others_update rfl
        holds := by
          rintro borrow (current | ⟨call, member, held⟩)
          · simp [Op.source?] at current
          · simp only [Function.update_self, List.mem_cons] at member
            rcases member with rfl | member
            · simp [Call.source?] at held
            · exact Or.inr ⟨call, member, held⟩
        finishing := by simp [Op.finishing?]
        refs := fun p => by
          simp [liveHandles, Thread.refs, Call.refs]
          omega
        claimsOp := fun p claim => by simp [Op.claim?] at claim
        claimsHandles := fun _ _ stored _ => Or.inl stored
        kept := fun _ _ found => found
        trace := fun _ => rfl }

theorem settles_finish {rest : Rest V S} (finished : s.finish t rest = .ok next) :
    Settles s next t (fun p => rest.refs p) rest.claim? := by
  cases rest with
  | done =>
      obtain rfl := Except.ok.inj finished
      exact settles_setOp rfl rfl (fun _ => rfl) fun _ claim => by
        simp [Op.claim?] at claim
  | grant call ptr => exact settles_grant finished
  | value data =>
      obtain rfl := Except.ok.inj finished
      refine Settles.logged (settles_setOp rfl rfl (fun _ => rfl) ?_) _
      simp [Op.claim?]
  | unwind =>
      obtain rfl := Except.ok.inj finished
      refine Settles.logged (settles_setOp rfl rfl (fun _ => rfl) ?_) _
      simp [Op.claim?]

section Settled

variable {heap : Heap V S} {log : List (Entry N V S)} {owed : Nat → Nat}
  {claim : Option Nat}

/-- A call that settled after it changed the heap and the history keeps all
borrows rooted. -/
theorem Settles.rooted
    (settles : Settles { s with heap := heap, log := log } next t owed claim)
    (sound : s.Sound) : ∀ borrow, next.Borrows borrow → next.Roots borrow :=
  sound.rooted_next
    (fun borrow alive => Or.inl (borrows_of_others alive settles.others
      settles.borrows settles.iters (settles.holds borrow)))
    fun _ hd _ found _ => settles.kept _ hd found

theorem Settles.claims
    (settles : Settles { s with heap := heap, log := log } next t owed claim)
    (known : ∀ p, claim = some p → s.Claimed p) (p : Nat)
    (claimed : next.Claimed p) : s.Claimed p ∨ next.owners p = 1 := by
  refine claims_of_others (s := s) settles.others (fun key hd found sole => ?_)
    (fun p claims => Or.inl (known p (settles.claimsOp p claims))) p claimed
  rcases settles.claimsHandles key hd found sole with before | same
  · exact Or.inl before
  · exact Or.inr (Or.inl (known hd.p same))

/-- The share of the call after it settled, where `paid` is what its last
step gave up. -/
theorem Settles.share_add {after : Status} {q : Nat}
    (settles : Settles { s with heap := heap, log := log } next t owed claim)
    (paid : Nat → Nat)
    (changes : s.heap.Changes heap q after)
    (before : ∀ p, (s.threads t).op.refs p = paid p + owed p) (p : Nat) :
    next.share t p + paid p = s.share t p := by
  have refs := settles.refs p
  have iters : next.iters = s.iters := settles.iters
  have heapEq : next.heap = heap := settles.heap
  have split := before p
  simp only [liveHandles] at refs
  simp only [share, liveHandles, arcsLeft, iters, heapEq, changes.leakedAt_eq]
  rw [refs]
  simp only [Thread.refs]
  omega

end Settled

/-- The check of the old count passed: `clone` returns its handle. -/
theorem Sound.cloned (sound : s.Sound) {source : Borrow} {form : SharedForm}
    {strategy : S} {old : Nat} (op : (s.threads t).op = .cloned source form strategy old) :
    ({ s with
      handles := s.handles.insert (Pointer.handle ⟨source.p, strategy⟩ form)
      threads := s.setOp t .idle } : Sys N V S).Sound := by
  refine sound.quiet (others_setOp rfl) (fun _ => rfl) ?_ ?_ (fun _ => rfl) ?_ ?_
  · intro p
    simp only [share, liveHandles, arcsLeft, SlotTable.weigh_insert, handle_refs,
      setOp, Function.update_self, Thread.refs, op, Op.refs, Pointer.refs]
    omega
  · simp [setOp, op, Op.finishing?]
  · refine sound.rooted_insert rfl fun borrow alive => ?_
    refine borrows_of_others alive (others_setOp rfl) rfl rfl ?_
    rintro (current | stacked)
    · simp [setOp, Op.source?] at current
    · exact Or.inr (by simpa [setOp] using stacked)
  · refine claims_of_others (others_setOp rfl) ?_ fun p claim => ?_
    · intro slot hd stored sole
      rcases SlotTable.get?_of_insert stored with rfl | stored
      · simp [Pointer.handle, Handle.sole, form.2] at sole
      · exact Or.inl stored
    · simp [setOp, Op.claim?] at claim

/-- The end of a uniqueness test, either way. -/
theorem Sound.tested (sound : s.Sound) {call : UniqueCall} {ptr : Pointer S}
    {loaded : Nat} (op : (s.threads t).op = .tested call ptr loaded)
    {claim : Option Nat} (settles : Settles s next t (fun p => ptr.refs p) claim)
    (known : ∀ p, claim = some p → loaded = 1 ∧ ptr.p = p) : next.Sound := by
  refine sound.quiet settles.others (fun _ => by rw [settles.heap]) ?_ ?_
    settles.trace (settles.rooted sound) (settles.claims fun p claims => ?_)
  · intro p
    have refs := settles.refs p
    have iters := settles.iters
    have heap := settles.heap
    have before : (s.threads t).refs p =
        ptr.refs p + ((s.threads t).stack.map (Call.refs p)).sum := by
      simp only [Thread.refs, op, Op.refs]
    simp only [share, arcsLeft, iters, heap]
    omega
  · rw [settles.finishing, op]
    rfl
  · obtain ⟨one, same⟩ := known p claims
    exact Or.inr ⟨t, by simp [op, Op.claim?, one, same]⟩

theorem Sound.moved (sound : s.Sound) {ptr : Pointer S} {heap : Heap V S}
    {data : V} (op : (s.threads t).op = .moving ptr)
    (given : s.heap.giveAway ptr.p .movedOut = .ok heap) :
    ({ s with
      heap := heap
      threads := s.setOp t .idle
      log := s.log ++
        [.life ptr.p (.takeOut (t, ptr.strategy)),
          .returned t (.value data)] } : Sys N V S).Sound := by
  obtain ⟨⟨old, counted⟩, changes⟩ := Heap.giveAway_spec rfl given
  have single := sound.sole ptr.p (Or.inr ⟨t, by rw [op]; rfl⟩)
  obtain rfl : old = 1 := by
    have same := sound.owners_of_counted counted
    omega
  generalize next_eq : ({ s with
      heap := heap
      threads := s.setOp t .idle
      log := s.log ++
        [.life ptr.p (.takeOut (t, ptr.strategy)),
          .returned t (.value data)] } : Sys N V S) = next
  have others : Others s next t := others_setOp (by subst next_eq; rfl)
  have share (p : Nat) : next.share t p + ptr.refs p = s.share t p := by
    subst next_eq
    simp only [Sys.share, liveHandles, arcsLeft, Thread.refs, setOp,
      Function.update_self, op, Op.refs, changes.leakedAt_eq]
    omega
  have finishing (p : Nat) (who : Fin N × S) :
      next.Finishing p who ↔ s.Finishing p who := by
    apply finishing_of_others others
    subst next_eq
    simp [setOp, op, Op.finishing?]
  have trace (p : Nat) : next.trace p =
      s.trace p ++ if ptr.p = p then [.takeOut (t, ptr.strategy)] else [] := by
    subst next_eq
    by_cases here : ptr.p = p <;>
      simp [Sys.trace, Entry.event?, here]
  have owners := owners_of_others others ptr.p
  have handed := share ptr.p
  rw [pointer_refs_self] at handed
  have heapEq : next.heap = heap := by
    subst next_eq
    rfl
  refine sound.at_block others (heapEq ▸ changes) ?_ ?_ ?_ ?_
  · refine .takeOut (t, ptr.strategy) counted ?_ (by omega) (finishing _) ?_
    · subst next_eq
      rw [changes.status_eq, if_pos rfl]
    · rw [trace, if_pos rfl]
  · intro p different
    have kept := share p
    rw [Pointer.refs, if_neg (Ne.symm different)] at kept
    refine ⟨by omega, finishing p, ?_⟩
    rw [trace, if_neg (Ne.symm different), List.append_nil]
  · subst next_eq
    exact sound.rooted_of_others others rfl rfl rfl (holds_of_setOp rfl rfl)
  · subst next_eq
    refine claims_of_others others (fun _ _ found _ => Or.inl found) fun p claim => ?_
    simp [setOp, Op.claim?] at claim

/-- The `fetch_sub` of a destructor that leaves references behind. -/
theorem Sound.released (sound : s.Sound) {word : MachineWord}
    (fits : s.Fits word) {ptr : Pointer S} {rest : Rest V S} {old : Nat}
    {heap : Heap V S} (op : (s.threads t).op = .dropping ptr rest)
    (subtracted : s.heap.fetchSub word ptr.p = .ok (old, heap)) (several : old ≠ 1)
    (settles : Settles { s with heap := heap } next t (fun p => rest.refs p)
      rest.claim?) : next.Sound := by
  obtain ⟨counted, changes⟩ := Heap.fetchSub_spec subtracted
  have fit := fits _ _ counted
  have owned : 0 < s.owners ptr.p := by
    have calls := refs_le_inFlight s t ptr.p
    simp only [Thread.refs, op, Op.refs, pointer_refs_self] at calls
    unfold owners
    omega
  have same := sound.owners_of_counted counted
  obtain ⟨new, rfl⟩ : ∃ new, old = new + 1 := ⟨old - 1, by omega⟩
  have wrapped : (new + 1 + word.modulus - 1) % word.modulus = new := by
    rw [show new + 1 + word.modulus - 1 = new + word.modulus by omega,
      Nat.add_mod_right, Nat.mod_eq_of_lt (by omega)]
  rw [wrapped] at changes
  have heapEq : next.heap = heap := settles.heap
  have others : Others s next t := settles.others
  have share := settles.share_add (fun p => ptr.refs p) changes
    fun p => by rw [op]; rfl
  have finishing (p : Nat) (who : Fin N × S) :
      next.Finishing p who ↔ s.Finishing p who := by
    apply finishing_of_others others
    rw [settles.finishing, op]
    rfl
  have owners := owners_of_others others ptr.p
  have handed := share ptr.p
  rw [pointer_refs_self] at handed
  refine sound.at_block others (heapEq ▸ changes) ?_ ?_ ?_ ?_
  · refine .release new 1 counted ?_ (by omega) (by omega) (finishing _)
      (settles.trace _)
    rw [heapEq, changes.status_eq, if_pos rfl]
  · intro p different
    have kept := share p
    rw [Pointer.refs, if_neg (Ne.symm different)] at kept
    exact ⟨by omega, finishing p, settles.trace p⟩
  · exact settles.rooted sound
  · refine settles.claims fun p claim => Or.inr ⟨t, ?_⟩
    rw [op]
    exact claim

/-- The `fetch_sub` of a destructor that takes the last reference. -/
theorem Sound.lastReleased (sound : s.Sound) {word : MachineWord}
    {ptr : Pointer S} {rest : Rest V S} {heap : Heap V S}
    (op : (s.threads t).op = .dropping ptr rest)
    (subtracted : s.heap.fetchSub word ptr.p = .ok (1, heap)) :
    ({ s with
      heap := heap
      threads := s.setOp t (.dropLoad ptr rest)
      log := s.log ++
        [.life ptr.p (.lastRelease (t, ptr.strategy))] } : Sys N V S).Sound := by
  obtain ⟨counted, changes⟩ := Heap.fetchSub_spec subtracted
  have wrapped : (1 + word.modulus - 1) % word.modulus = 0 := by
    rw [Nat.add_sub_cancel_left, Nat.mod_self]
  rw [wrapped] at changes
  generalize next_eq : ({ s with
      heap := heap
      threads := s.setOp t (.dropLoad ptr rest)
      log := s.log ++
        [.life ptr.p (.lastRelease (t, ptr.strategy))] } : Sys N V S) = next
  have others : Others s next t := others_setOp (by subst next_eq; rfl)
  have share (p : Nat) : next.share t p + ptr.refs p = s.share t p := by
    subst next_eq
    simp only [Sys.share, liveHandles, arcsLeft, Thread.refs, setOp,
      Function.update_self, op, Op.refs, changes.leakedAt_eq]
    omega
  have finishing (p : Nat) (who : Fin N × S) : next.Finishing p who ↔
      s.Finishing p who ∨ ptr.p = p ∧ who = (t, ptr.strategy) := by
    obtain ⟨x, strategy⟩ := who
    unfold Finishing
    by_cases here : x = t
    · subst next_eq
      simp [setOp, here, op, Op.finishing?, eq_comm]
    · simp [others _ here, here]
  have trace (p : Nat) : next.trace p =
      s.trace p ++ if ptr.p = p then [.lastRelease (t, ptr.strategy)] else [] := by
    subst next_eq
    rw [← filterMap_life]
    exact trace_append s _ p
  have owners := owners_of_others others ptr.p
  have handed := share ptr.p
  rw [pointer_refs_self] at handed
  have heapEq : next.heap = heap := by
    subst next_eq
    rfl
  refine sound.at_block others (heapEq ▸ changes) ?_ ?_ ?_ ?_
  · refine .lastRelease (t, ptr.strategy) counted ?_ (by omega) ?_ ?_
    · rw [heapEq, changes.status_eq, if_pos rfl]
    · intro other
      simp [finishing]
    · rw [trace, if_pos rfl]
  · intro p different
    have kept := share p
    rw [Pointer.refs, if_neg (Ne.symm different)] at kept
    refine ⟨by omega, fun who => ?_, ?_⟩
    · simp [finishing, Ne.symm different]
    · rw [trace, if_neg (Ne.symm different), List.append_nil]
  · subst next_eq
    exact sound.rooted_of_others others rfl rfl rfl (holds_of_setOp rfl rfl)
  · subst next_eq
    refine claims_of_others others (fun _ _ found _ => Or.inl found) fun p claim => ?_
    exact Or.inl (Or.inr ⟨t, by simpa [setOp, op, Op.claim?] using claim⟩)

theorem Sound.acquired (sound : s.Sound) {ptr : Pointer S} {rest : Rest V S}
    (op : (s.threads t).op = .dropLoad ptr rest) :
    ({ s with threads := s.setOp t (.dropSlow ptr rest) } : Sys N V S).Sound := by
  refine sound.quiet (others_setOp rfl) (fun _ => rfl) ?_ ?_ (fun _ => rfl) ?_ ?_
  · intro p
    simp [share, liveHandles, arcsLeft, setOp, Thread.refs, op, Op.refs]
  · simp [setOp, op, Op.finishing?]
  · exact sound.rooted_of_others (others_setOp rfl) rfl rfl rfl (holds_of_setOp rfl rfl)
  · refine claims_of_others (others_setOp rfl) (fun _ _ found _ => Or.inl found)
      fun p claim => ?_
    exact Or.inl (Or.inr ⟨t, by simpa [setOp, op, Op.claim?] using claim⟩)

/-- `drop_slow` runs the strategy on the block. -/
theorem Sound.finalized (sound : s.Sound) {ptr : Pointer S} {rest : Rest V S}
    {heap : Heap V S} (op : (s.threads t).op = .dropSlow ptr rest)
    (given : s.heap.giveAway ptr.p (.backdropped ptr.strategy) = .ok heap)
    (settles : Settles { s with
        heap := heap
        log := s.log ++ [.life ptr.p (.finalize (t, ptr.strategy))] }
      next t (fun p => rest.refs p) rest.claim?) : next.Sound := by
  obtain ⟨_, changes⟩ := Heap.giveAway_spec rfl given
  have heapEq : next.heap = heap := settles.heap
  have others : Others s next t := settles.others
  have share := settles.share_add (fun _ => 0) changes
    fun p => by rw [op, Nat.zero_add]; rfl
  have pending : s.Finishing ptr.p (t, ptr.strategy) := by
    simp [Finishing, op, Op.finishing?]
  have finishing (p : Nat) (who : Fin N × S) : next.Finishing p who ↔
      s.Finishing p who ∧ ¬ (ptr.p = p ∧ who = (t, ptr.strategy)) := by
    obtain ⟨x, strategy⟩ := who
    unfold Finishing
    by_cases here : x = t
    · rw [here, settles.finishing, op]
      simp only [Op.finishing?, reduceCtorEq, Option.some.injEq, Prod.mk.injEq,
        true_and, false_iff, not_and]
      intro both distinct
      exact distinct both.1 both.2.symm
    · simp [others _ here, here]
  have trace (p : Nat) : next.trace p =
      s.trace p ++ if ptr.p = p then [.finalize (t, ptr.strategy)] else [] := by
    rw [settles.trace p, ← filterMap_life]
    exact trace_append s _ p
  have owners (p : Nat) : next.owners p = s.owners p := by
    have moved := owners_of_others others p
    have same := share p
    omega
  refine sound.at_block others (heapEq ▸ changes) ?_ ?_ ?_ ?_
  · refine .finalize (t, ptr.strategy) pending ?_ (owners _) ?_ ?_
    · rw [heapEq, changes.status_eq, if_pos rfl]
    · intro other
      simp [finishing]
    · rw [trace, if_pos rfl]
  · intro p different
    refine ⟨share p, fun who => ?_, ?_⟩
    · simp [finishing, Ne.symm different]
    · rw [trace, if_neg (Ne.symm different), List.append_nil]
  · exact settles.rooted sound
  · refine settles.claims fun p claim => Or.inr ⟨t, ?_⟩
    rw [op]
    exact claim

end Sys

end BackdropArc
