import BackdropArc.Disposal

/-!
# Copies of a clone iterator

`ArcCloneIter` derives `Clone`, which copies the number of references that the
iterator reserves without reserving them again.  The accounts stay in order
exactly as long as only spent iterators are copied.
-/

namespace BackdropArc

open GuardedRuns CountedLifecycle

variable {N : Nat} {V S : Type}

namespace Sys

variable {s next : Sys N V S} {t : Fin N} {word : MachineWord} {p key : Nat}
  {iter : ArcCloneIter S}

/-- Every count in memory is the number of references. -/
def Balanced (s : Sys N V S) : Prop :=
  ∀ p count, s.heap.status p = .counted count → count = s.owners p

theorem Sound.balanced (sound : s.Sound) : s.Balanced :=
  fun _ _ counted => (sound.owners_of_counted counted).symm

theorem cloneIter_spec (idle : (s.threads t).op = .idle)
    (found : s.iters.get? key = some iter) :
    step word s (t, .cloneIter key) = .ok { s with iters := s.iters.insert iter } := by
  rw [step_of_idle idle (by simp)]
  exact bind_eq_ok.mpr ⟨iter, demandSome_eq_ok.mpr found, rfl⟩

/-- A copy of an iterator reserves its references a second time on paper. -/
theorem owners_of_cloned_iter (s : Sys N V S) (iter : ArcCloneIter S) (p : Nat) :
    ({ s with iters := s.iters.insert iter } : Sys N V S).owners p =
      s.owners p + iter.refs p := by
  simp only [owners, liveHandles, inFlight, arcsLeft, SlotTable.weigh_insert]
  omega

/-- The derived `Clone` keeps the balance exactly on spent iterators. -/
theorem Sound.balanced_cloneIter (sound : s.Sound)
    (found : s.iters.get? key = some iter) :
    ({ s with iters := s.iters.insert iter } : Sys N V S).Balanced ↔
      iter.arcsLeft = 0 := by
  have reserved := sound.arcsLeft_lt_owners found
  have counted := sound.counted_of_owned (p := iter.orig.p) (by omega)
  constructor
  · intro balanced
    have copied := owners_of_cloned_iter s iter iter.orig.p
    have same := balanced _ _ counted
    simp only [ArcCloneIter.refs, if_true] at copied
    omega
  · intro spent p count counted
    have copied := owners_of_cloned_iter s iter p
    have nothing : iter.refs p = 0 := by simp [ArcCloneIter.refs, spent]
    rw [copied, nothing, Nat.add_zero, sound.owners_of_counted counted]

/-- In every run in which `Clone` is applied to spent iterators only, no count
reaches the end of the machine word, and `T::clone` never panics inside
`OffsetArc::make_mut`: all counts are exact, dropping an iterator leaves the
count positive, and a handle that is reported unique is alone.  The next copy
of an iterator keeps the counts exact only if that iterator is spent. -/
theorem clone_iter_accounting (word : MachineWord)
    (run : Reaches (step word) (Regular word) (start N V S) s) :
    (∀ p count, s.heap.status p = .counted count →
      count = s.liveHandles p + s.inFlight p + s.arcsLeft p + s.heap.leakedAt p) ∧
    (∀ t key iter, (s.threads t).op = .idle → s.iters.get? key = some iter →
      ∃ count next, s.heap.status iter.orig.p = .counted count ∧
        step word s (t, .dropIter key) = .ok next ∧
          next.heap.status iter.orig.p = .counted (count - iter.arcsLeft) ∧
            iter.arcsLeft < count) ∧
    (∀ key hd, s.handles.get? key = some hd → s.heap.load hd.p = .ok 1 →
      (∀ other hd', s.handles.get? other = some hd' → hd'.p = hd.p → other = key) ∧
        s.arcsLeft hd.p = 0) ∧
    ∀ t key iter, (s.threads t).op = .idle → s.iters.get? key = some iter →
      ∃ next, step word s (t, .cloneIter key) = .ok next ∧
        (next.Balanced ↔ iter.arcsLeft = 0) := by
  have sound := sound_of_reaches run
  refine ⟨sound.balanced, ?_, ?_, ?_⟩
  · intro t key iter idle found
    obtain ⟨count, next, counted, less, stepped, after⟩ :=
      sound.dropIter_spec word idle found
    exact ⟨count, next, counted, stepped, after, less⟩
  · intro key hd found unique
    have single := sound.owners_of_counted (Heap.load_eq_ok.mp unique)
    have weight := SlotTable.le_weigh (Handle.refs hd.p) found
    rw [handle_refs_self] at weight
    unfold owners liveHandles at single
    refine ⟨fun other stored here same => ?_, by omega⟩
    by_contra different
    have both := SlotTable.add_le_weigh (Handle.refs hd.p) different here found
    rw [handle_refs_self, ← same, handle_refs_self, same] at both
    omega
  · exact fun t key iter idle found =>
      ⟨_, cloneIter_spec idle found, sound.balanced_cloneIter found⟩

/-- A spent iterator is copied, and both copies are dropped. -/
theorem clone_iter_accounting_witness :
    ∃ s : Sys 1 Nat Unit, s.heap.status 0 = .counted 2 ∧
      2 = s.liveHandles 0 + s.inFlight 0 + s.arcsLeft 0 + s.heap.leakedAt 0 :=
  have run : Reaches (step .wide) (Regular .wide) (start 1 Nat Unit) _ :=
    reaches_of_follow
      [(0, .new 7 ()), (0, .cloneMany (.handle 0) 1), (0, .next 0), (0, .cloneIter 0),
        (0, .dropIter 0), (0, .next 1)] rfl
  ⟨_, rfl, (clone_iter_accounting .wide run).1 0 2 rfl⟩

/-- Two copies of an iterator that reserves one reference hand it out twice:
the block counts two of its three handles, the drop of one makes another look
unique, and the drop of a second one frees the block under the third. -/
theorem clone_iter_duplicates :
    ∃ s unique later : Sys 1 Nat Unit,
      Reaches (step .wide) (fun _ _ => True) (start 1 Nat Unit) s ∧
        s.heap.status 0 = .counted 2 ∧ s.liveHandles 0 = 3 ∧
          Reaches (step .wide) (fun _ _ => True) s unique ∧
            unique.heap.load 0 = .ok 1 ∧ unique.liveHandles 0 = 2 ∧
              Reaches (step .wide) (fun _ _ => True) unique later ∧
                step .wide later (0, .read (.handle 2)) = .error .useAfterFree :=
  have run : Reaches (step .wide) (fun _ _ => True) (start 1 Nat Unit) _ :=
    reaches_of_follow
      [(0, .new 7 ()), (0, .cloneMany (.handle 0) 1), (0, .cloneIter 0), (0, .next 0),
        (0, .next 1), (0, .dropIter 0), (0, .dropIter 1)] rfl
  ⟨_, _, _, run, rfl, rfl,
    reaches_of_follow [(0, .drop 0), (0, .advance)] rfl, rfl, rfl,
    reaches_of_follow [(0, .drop 1), (0, .advance), (0, .advance), (0, .advance)] rfl,
    rfl⟩

end Sys

end BackdropArc
