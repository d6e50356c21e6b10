import BackdropArc.CallSteps
import BackdropArc.StepCases

/-!
# Every step keeps the accounts

The step lemmas are put together: a step from a sound state in which no count
is about to wrap around leads to a sound state, unless it duplicates a
reference.  Only two steps of the whole crate do that.
-/

namespace BackdropArc

open GuardedRuns CountedLifecycle

variable {N : Nat} {V S : Type}

/-- The derived `Clone` copies an iterator that still reserves references. -/
def Sys.clonesReservation (s : Sys N V S) : Fin N × Act N V S → Bool
  | (_, .cloneIter key) => (s.iters.get? key).any (·.arcsLeft ≠ 0)
  | _ => false

/-- `T::clone` panics inside `OffsetArc::make_mut`. -/
def Sys.unwindsOffsetMakeMut (s : Sys N V S) : Fin N × Act N V S → Bool
  | (t, .unwind) =>
      match (s.threads t).stack with
      | .valueClone .offsetMakeMut _ :: _ => true
      | _ => false
  | _ => false

/-- The steps that do not duplicate a reference. -/
def Sys.Keeps (s : Sys N V S) (move : Fin N × Act N V S) : Prop :=
  s.clonesReservation move = false ∧ s.unwindsOffsetMakeMut move = false

instance (s : Sys N V S) (move : Fin N × Act N V S) : Decidable (s.Keeps move) :=
  inferInstanceAs (Decidable (_ ∧ _))

namespace Sys

variable {s next : Sys N V S} {t : Fin N} {word : MachineWord}

theorem Sound.advanced (sound : s.Sound) (fits : s.Fits word)
    (room : s.RoomFor word t) (advanced : Advanced word s t next) : next.Sound := by
  cases advanced with
  | fetchAdd op added =>
      exact sound.fetchAdd op (room _ _ _ _ op (Heap.fetchAdd_spec added).1) added
  | cloned op _ => exact sound.cloned op
  | grant op granted =>
      refine sound.tested op (settles_grant granted) fun p claim => ?_
      exact ⟨rfl, Option.some.inj claim⟩
  | decline op _ declined =>
      exact sound.tested op (settles_decline declined) fun p claim => by simp at claim
  | moved op _ _ given => exact sound.moved op given
  | released op subtracted several finished =>
      exact sound.released fits op subtracted several (settles_finish finished)
  | lastReleased op subtracted => exact sound.lastReleased op subtracted
  | acquired op _ => exact sound.acquired op
  | finalized op given finished =>
      exact sound.finalized op given (settles_finish finished)

/-- User code keeps the accounts, but for the two steps that duplicate a
reference. -/
theorem Sound.called (sound : s.Sound) (idle : (s.threads t).op = .idle)
    {act : Act N V S} (keeps : s.Keeps (t, act))
    (called : Called word s t act next) : next.Sound := by
  cases called with
  | new data strategy | newUnique data strategy => exact sound.new t data strategy _
  | borrow viewed => exact sound.borrow t viewed
  | endBorrow key => exact sound.endBorrow t key
  | read | count | nextNone | readMut => exact sound.logged t _
  | clone viewed cloned =>
      refine sound.startShared viewed idle ?_ ?_ rfl rfl
      · rintro other (current | stacked)
        · exact Or.inl (Option.some.inj current).symm
        · exact Or.inr (Or.inr stacked)
      · simp [Thread.refs, idle, Op.refs]
  | cloneMany viewed updated => exact sound.cloneMany t viewed updated _
  | next found left => exact sound.iterNext t found left
  | cloneIter found =>
      refine sound.cloneEmptyIter t found ?_
      simpa [clonesReservation, found] using keeps.1
  | dropSpentIter found spent => exact sound.dropEmptyIter t found spent
  | dropIter found _ updated => exact sound.dropIter t found updated
  | forgetIter found => exact sound.forgetIter t found
  | enter viewed entered =>
      refine sound.startShared viewed idle ?_ ?_ rfl rfl
      · rintro other (current | ⟨call, member, held⟩)
        · simp [Op.source?] at current
        · rcases List.mem_cons.mp member with rfl | member
          · exact Or.inl (Option.some.inj held).symm
          · exact Or.inr (Or.inr ⟨call, member, held⟩)
      · simp [Thread.refs, idle, Call.refs]
  | leave suspended | unwindCallback suspended => exact sound.leave idle suspended
  | unwindMake suspended _ =>
      exact (sound.unwindMake idle suspended .arc (by decide)).logged t .unwound
  | unwindOffsetMakeMut suspended =>
      simp [Keeps, unwindsOffsetMakeMut, suspended] at keeps
  | unwindUnwrapOrClone suspended | unwrappedClone suspended =>
      exact sound.endClone idle suspended (fun _ => rfl) rfl
  | convert freed applied => exact sound.convert t freed applied
  | drop freed _ =>
      exact sound.startOwned freed idle (fun _ => rfl) rfl rfl fun p claim => by
        simp [Op.claim?, Rest.claim?] at claim
  | forget freed => exact sound.forget t freed
  | @unique _ _ loaded hd freed _ load =>
      refine sound.startOwned freed idle (fun _ => rfl) rfl rfl fun p claim => ?_
      obtain ⟨rfl, rfl⟩ : loaded = 1 ∧ hd.p = p := by simpa [Op.claim?] using claim
      exact sound.owners_of_counted (Heap.load_eq_ok.mp load)
  | @intoInner key hd freed form =>
      refine sound.startOwned freed idle (fun _ => rfl) rfl rfl fun p claim => ?_
      obtain rfl : hd.p = p := by simpa [Op.claim?] using claim
      refine sound.sole _ (Or.inl ⟨key, hd, (free_eq_ok.mp freed).1, ?_, rfl⟩)
      simp [Handle.sole, form]
  | write _ _ written => exact sound.write t written
  | endGrant found lent => exact sound.endGrant t found lent
  | readClone => exact sound
  | copyMade suspended _ => exact sound.copyMade idle suspended _

/-- Only a `fetch_add` needs room for one more reference. -/
theorem Sound.stepped_of_fits (sound : s.Sound) (fits : s.Fits word)
    {move : Fin N × Act N V S} (room : s.RoomFor word move.1) (keeps : s.Keeps move)
    (stepped : step word s move = .ok next) : next.Sound := by
  obtain ⟨t, act⟩ := move
  rcases step_cases stepped with ⟨rfl, advanced⟩ | ⟨idle, called⟩
  · exact sound.advanced fits room advanced
  · exact sound.called idle keeps called

/-- The step lemma of the whole crate. -/
theorem Sound.stepped (sound : s.Sound) (roomy : s.Roomy word)
    {move : Fin N × Act N V S} (keeps : s.Keeps move)
    (stepped : step word s move = .ok next) : next.Sound :=
  sound.stepped_of_fits roomy.fits (roomy.roomFor move.1) keeps stepped

end Sys

end BackdropArc
