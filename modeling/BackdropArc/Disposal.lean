import BackdropArc.CountOverflow

/-!
# Exactly-once disposal

A block is disposed of by one execution of a backdrop strategy or by one move
of its data, never by both and never twice.  The handle that takes the count
from 1 to 0 decides the strategy, and nothing touches the block afterwards.
-/

namespace BackdropArc

open GuardedRuns CountedLifecycle

variable {N : Nat} {V S : Type}

namespace Sys

variable {s next : Sys N V S} {t : Fin N} {word : MachineWord} {p : Nat}

/-- How often block `p` was disposed of. -/
def disposals (s : Sys N V S) (p : Nat) : Nat :=
  (s.trace p).countP Event.disposes

/-- Block `p` was disposed of as many times as the phase of its life says. -/
theorem Sound.disposals_eq (sound : s.Sound) (p : Nat) :
    s.disposals p = 1 ∧ s.heap.status p = .freed ∨
      s.disposals p = 0 ∧ s.heap.status p ≠ .freed := by
  obtain ⟨phase, accounts, life⟩ := sound.accounts p
  rcases life.countP_disposes with ⟨once, rfl⟩ | ⟨never, phase_ne⟩
  · exact Or.inl ⟨once, accounts.1⟩
  · refine Or.inr ⟨never, fun freed => phase_ne ?_⟩
    cases phase with
    | gone => rfl
    | unborn | live | dying => simp [Accounts, freed] at accounts

/-- A block without owners has been disposed of, or a destructor is about to. -/
theorem Sound.disposed_or_pending (sound : s.Sound)
    (allocated : s.heap.status p ≠ .absent) (unowned : s.owners p = 0) :
    s.disposals p = 1 ∨ ∃ who, s.Finishing p who := by
  obtain ⟨phase, accounts, life⟩ := sound.accounts p
  cases phase with
  | unborn => exact absurd accounts.1 allocated
  | live others => exact absurd accounts.2.1 (by omega)
  | dying who => exact Or.inr ⟨who, (accounts.2.2 who).mpr rfl⟩
  | gone =>
      rcases sound.disposals_eq p with ⟨once, _⟩ | ⟨_, notFreed⟩
      · exact Or.inl once
      · exact absurd accounts.1 notFreed

theorem Sound.disposes (sound : s.Sound) (word : MachineWord) {ptr : Pointer S}
    {rest : Rest V S} (op : (s.threads t).op = .dropSlow ptr rest) :
    ∃ next, step word s (t, .advance) = .ok next ∧ next.disposals ptr.p = 1 := by
  obtain ⟨heap, next, _, finished, advanced⟩ := sound.dropSlow_succeeds word op
  refine ⟨next, by simpa [step] using advanced, ?_⟩
  have pending : s.Finishing ptr.p (t, ptr.strategy) := by rw [Finishing, op]; rfl
  obtain ⟨phase, accounts, life⟩ := sound.accounts ptr.p
  obtain rfl := accounts.of_finishing pending
  have released : s.trace ptr.p = [.lastRelease (t, ptr.strategy)] := life.shape
  have trace := (settles_finish finished).trace ptr.p
  unfold disposals
  rw [trace]
  unfold Sys.trace at released ⊢
  simp [released, Entry.event?, Event.disposes]

/-- A pending destructor disposes of its block with the next steps of its own
thread. -/
theorem Sound.pending_disposes (sound : s.Sound) (word : MachineWord)
    {who : Fin N × S} (pending : s.Finishing p who) :
    ∃ last, Advances word who.1 s last ∧ last.disposals p = 1 := by
  have shape := pending
  unfold Finishing at shape
  cases op : (s.threads who.1).op with
  | dropSlow ptr rest =>
      obtain ⟨rfl, _⟩ : ptr.p = p ∧ ptr.strategy = who.2 := by
        simpa [op, Op.finishing?] using shape
      obtain ⟨last, stepped, once⟩ := sound.disposes word op
      exact ⟨last, (Advances.refl word who.1 s).tail stepped, once⟩
  | dropLoad ptr rest =>
      obtain ⟨rfl, _⟩ : ptr.p = p ∧ ptr.strategy = who.2 := by
        simpa [op, Op.finishing?] using shape
      have loaded : step word s (who.1, .advance) =
          .ok { s with threads := s.setOp who.1 (.dropSlow ptr rest) } := by
        simpa [step] using sound.dropLoad_succeeds op
      have slow : (s.setOp who.1 (.dropSlow ptr rest) who.1).op =
          .dropSlow ptr rest := by
        simp [setOp]
      obtain ⟨last, stepped, once⟩ := (sound.acquired op).disposes word slow
      exact ⟨last, ((Advances.refl word who.1 s).tail loaded).tail stepped, once⟩
  | idle | cloning | cloned | tested | moving | dropping =>
      simp [op, Op.finishing?] at shape

/-- How a block is disposed of: by the strategy of the handle whose `fetch_sub`
took the last reference, or by a move. -/
theorem Sound.trace_of_disposed (sound : s.Sound) (once : s.disposals p = 1) :
    (∃ who, s.trace p = [.lastRelease who, .finalize who]) ∨
      ∃ who, s.trace p = [.takeOut who] := by
  obtain ⟨phase, accounts, life⟩ := sound.accounts p
  rcases life.countP_disposes with ⟨_, rfl⟩ | ⟨never, _⟩
  · exact life.shape
  · exact absurd once (by unfold disposals; omega)

/-- After the count wrapped around, dropping one handle disposes of the block
that the other handle still points to. -/
theorem wrappedCrowd_dropped (spare : maxRefcount word + 3 ≤ t) :
    ∃ s, Reaches (step word) Keeps (wrappedCrowd word N) s ∧
      step word s (t, .read (.handle 0)) = .error .useAfterFree := by
  have idle := wrappedCrowd_idle word spare
  have freed := wrappedCrowd_free word N
  let after (op : Op Unit Unit) (count : Nat) (fate : Fate Unit)
      (log : List (Entry N Unit Unit)) : Sys N Unit Unit :=
    { wrappedCrowd word N with
      heap := [{ count := count, data := (), fate := fate, leaked := 0 }]
      handles := (wrappedCrowd word N).handles.erase 1
      threads := (wrappedCrowd word N).setOp t op
      log := log }
  have dropped : step word (wrappedCrowd word N) (t, .drop 1) =
      .ok (after (.dropping ⟨0, ()⟩ .done) 1 .live []) := by
    rw [step_of_idle (by rw [idle]) (by simp)]
    exact bind_eq_ok.mpr ⟨_, freed, bind_eq_ok.mpr ⟨(), rfl, rfl⟩⟩
  have released : step word (after (.dropping ⟨0, ()⟩ .done) 1 .live []) (t, .advance) =
      .ok (after (.dropLoad ⟨0, ()⟩ .done) 0 .live
        [.life 0 (.lastRelease (t, ()))]) := by
    simp [Sys.advance, after, setOp, Heap.fetchSub, Heap.access, Fate.isLive,
      bind, Except.bind, pure, Except.pure]
  have loaded : step word (after (.dropLoad ⟨0, ()⟩ .done) 0 .live
        [.life 0 (.lastRelease (t, ()))]) (t, .advance) =
      .ok (after (.dropSlow ⟨0, ()⟩ .done) 0 .live
        [.life 0 (.lastRelease (t, ()))]) := by
    simp [Sys.advance, after, setOp, Heap.load, Heap.access, Fate.isLive,
      bind, Except.bind, pure, Except.pure]
  have disposed : step word (after (.dropSlow ⟨0, ()⟩ .done) 0 .live
        [.life 0 (.lastRelease (t, ()))]) (t, .advance) =
      .ok (after .idle 0 (.backdropped ())
        [.life 0 (.lastRelease (t, ())), .life 0 (.finalize (t, ()))]) := by
    simp [Sys.advance, after, setOp, Heap.giveAway, Heap.access, Fate.isLive,
      finish, bind, Except.bind, pure, Except.pure]
  refine ⟨_, (((Reaches.refl.tail _ ⟨rfl, rfl⟩ dropped).tail _ ⟨rfl, rfl⟩ released).tail
    _ ⟨rfl, rfl⟩ loaded).tail _ ⟨rfl, rfl⟩ disposed, ?_⟩
  rw [step_of_idle (by simp [after, setOp]) (by simp)]
  simp [Sys.call, after, view, demandSome, wrappedCrowd, crowd,
    SlotTable.erase, SlotTable.get?, Pointer.handle, Handle.refKind, Heap.read,
    Heap.access, Fate.isLive, bind, Except.bind]

end Sys

end BackdropArc
