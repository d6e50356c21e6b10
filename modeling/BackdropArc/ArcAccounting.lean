import BackdropArc.ArcSteps
import Mathlib.Algebra.BigOperators.Group.Finset.Piecewise
import Mathlib.Algebra.BigOperators.Ring.Finset
import Mathlib.Algebra.Order.BigOperators.Group.Finset
import Mathlib.Algebra.Order.BigOperators.Group.List
import Mathlib.Tactic.Ring

/-!
# Accounting for every reference

For one block the state of the program is summarised by what its memory says,
how many references the program accounts for, and which destructor is about to
dispose of it.  `Accounts` relates this summary to a phase of the abstract
life of a counted object, and `Effect` lists the only ways in which a step may
change it.  Every effect is a step of the abstract life.
-/

namespace BackdropArc

open CountedLifecycle

variable {N : Nat} {V S : Type}

/-- The block and strategy a destructor will dispose of. -/
def Op.finishing? : Op V S → Option (Nat × S)
  | .dropLoad ptr _ | .dropSlow ptr _ => some (ptr.p, ptr.strategy)
  | _ => none

def Rest.claim? : Rest V S → Option Nat
  | .grant _ ptr => some ptr.p
  | .done | .value _ | .unwind => none

/-- The block that a call in progress knows to be uniquely owned. -/
def Op.claim? : Op V S → Option Nat
  | .tested _ ptr loaded => if loaded = 1 then some ptr.p else none
  | .moving ptr => some ptr.p
  | .dropping _ rest | .dropLoad _ rest | .dropSlow _ rest => rest.claim?
  | .idle | .cloning _ _ _ | .cloned _ _ _ _ => none

/-- Some part of the program relies on block `p` having a single owner. -/
def Sys.Claimed (s : Sys N V S) (p : Nat) : Prop :=
  (∃ key hd, s.handles.get? key = some hd ∧ hd.sole = true ∧ hd.p = p) ∨
    ∃ t, (s.threads t).op.claim? = some p

/-- Thread `t` is about to dispose of block `p` under `strategy`. -/
def Sys.Finishing (s : Sys N V S) (p : Nat) (who : Fin N × S) : Prop :=
  (s.threads who.1).op.finishing? = some (p, who.2)

def Entry.event? (p : Nat) : Entry N V S → Option (Event (Fin N × S))
  | .life q event => if q = p then some event else none
  | .returned _ _ => none

/-- The visible life of block `p` so far. -/
def Sys.trace (s : Sys N V S) (p : Nat) : List (Event (Fin N × S)) :=
  s.log.filterMap (Entry.event? p)

/-- The borrow's handle is where the borrow says, points to the same block,
and is of a kind that shared references may point to. -/
def Sys.Roots (s : Sys N V S) (borrow : Borrow) : Prop :=
  ∃ hd, s.handles.get? borrow.root = some hd ∧ hd.p = borrow.p ∧
    hd.lendable = true

/-- The summary of block `p` that belongs to a phase of its life. -/
def Sys.Accounts (s : Sys N V S) (p : Nat) : Phase (Fin N × S) → Prop
  | .unborn =>
      s.heap.status p = .absent ∧ s.owners p = 0 ∧ ∀ who, ¬ s.Finishing p who
  | .live others =>
      s.heap.status p = .counted (others + 1) ∧ s.owners p = others + 1 ∧
        ∀ who, ¬ s.Finishing p who
  | .dying releaser =>
      s.heap.status p = .counted 0 ∧ s.owners p = 0 ∧
        ∀ who, s.Finishing p who ↔ who = releaser
  | .gone =>
      s.heap.status p = .freed ∧ s.owners p = 0 ∧ ∀ who, ¬ s.Finishing p who

/-- The invariant of every run: each block is accounted for by a phase that
its history explains, each borrow is rooted in a handle, and each claim of
sole ownership is true. -/
structure Sys.Sound (s : Sys N V S) : Prop where
  accounts : ∀ p, ∃ phase, s.Accounts p phase ∧ Life (s.trace p) phase
  rooted : ∀ borrow, s.Borrows borrow → s.Roots borrow
  sole : ∀ p, s.Claimed p → s.owners p = 1

/-- What one step may do to one block. -/
inductive Sys.Effect (s next : Sys N V S) (p : Nat) : Prop
  /-- Ownership moves around at most. -/
  | quiet (status : next.heap.status p = s.heap.status p)
      (owners : next.owners p = s.owners p)
      (finishing : ∀ who, next.Finishing p who ↔ s.Finishing p who)
      (trace : next.trace p = s.trace p)
  | create (before : s.heap.status p = .absent)
      (after : next.heap.status p = .counted 1)
      (owners : next.owners p = s.owners p + 1)
      (finishing : ∀ who, next.Finishing p who ↔ s.Finishing p who)
      (trace : next.trace p = s.trace p)
  | acquire (old more : Nat) (before : s.heap.status p = .counted old)
      (after : next.heap.status p = .counted (old + more))
      (owners : next.owners p = s.owners p + more) (shared : ¬ s.Claimed p)
      (held : 0 < s.owners p)
      (finishing : ∀ who, next.Finishing p who ↔ s.Finishing p who)
      (trace : next.trace p = s.trace p)
  | release (new fewer : Nat) (before : s.heap.status p = .counted (new + fewer))
      (after : next.heap.status p = .counted new) (remains : 0 < new)
      (owners : next.owners p + fewer = s.owners p)
      (finishing : ∀ who, next.Finishing p who ↔ s.Finishing p who)
      (trace : next.trace p = s.trace p)
  | lastRelease (who : Fin N × S) (before : s.heap.status p = .counted 1)
      (after : next.heap.status p = .counted 0)
      (owners : next.owners p + 1 = s.owners p)
      (finishing : ∀ other,
        next.Finishing p other ↔ s.Finishing p other ∨ other = who)
      (trace : next.trace p = s.trace p ++ [.lastRelease who])
  | finalize (who : Fin N × S) (pending : s.Finishing p who)
      (after : next.heap.status p = .freed)
      (owners : next.owners p = s.owners p)
      (finishing : ∀ other,
        next.Finishing p other ↔ s.Finishing p other ∧ other ≠ who)
      (trace : next.trace p = s.trace p ++ [.finalize who])
  | takeOut (who : Fin N × S) (before : s.heap.status p = .counted 1)
      (after : next.heap.status p = .freed)
      (owners : next.owners p + 1 = s.owners p)
      (finishing : ∀ who, next.Finishing p who ↔ s.Finishing p who)
      (trace : next.trace p = s.trace p ++ [.takeOut who])

namespace Sys

variable {s next : Sys N V S} {p : Nat}

theorem Accounts.of_counted {phase : Phase (Fin N × S)}
    (accounts : s.Accounts p phase) {count : Nat}
    (counted : s.heap.status p = .counted count) :
    s.owners p = count ∧
      ((∃ others, phase = .live others ∧ count = others + 1) ∨
        ∃ who, phase = .dying who ∧ count = 0) := by
  cases phase with
  | unborn =>
      have absent := accounts.1
      simp [counted] at absent
  | live others =>
      obtain ⟨status, owners, _⟩ := accounts
      have same : count = others + 1 := by simpa [counted] using status
      exact ⟨by omega, Or.inl ⟨others, rfl, same⟩⟩
  | dying who =>
      obtain ⟨status, owners, _⟩ := accounts
      have same : count = 0 := by simpa [counted] using status
      exact ⟨by omega, Or.inr ⟨who, rfl, same⟩⟩
  | gone =>
      have freed := accounts.1
      simp [counted] at freed

theorem Accounts.of_owned {phase : Phase (Fin N × S)}
    (accounts : s.Accounts p phase) (owned : 0 < s.owners p) :
    ∃ others, phase = .live others ∧
      s.heap.status p = .counted (others + 1) ∧ s.owners p = others + 1 := by
  cases phase with
  | live others => exact ⟨others, rfl, accounts.1, accounts.2.1⟩
  | unborn | dying | gone =>
      have none := accounts.2.1
      omega

theorem Accounts.of_finishing {phase : Phase (Fin N × S)}
    (accounts : s.Accounts p phase) {who : Fin N × S}
    (pending : s.Finishing p who) : phase = .dying who := by
  cases phase with
  | dying releaser => rw [(accounts.2.2 who).mp pending]
  | unborn | live | gone => exact absurd pending (accounts.2.2 who)

/-- The refinement: every effect of a step is a step of the abstract life. -/
theorem Effect.lives {phase : Phase (Fin N × S)} (effect : s.Effect next p)
    (accounts : s.Accounts p phase) :
    ∃ after events, next.Accounts p after ∧ Step phase events after ∧
      next.trace p = s.trace p ++ events := by
  cases effect with
  | quiet status owners finishing trace =>
      refine ⟨phase, [], ?_, .stay phase, by simpa using trace⟩
      cases phase <;> simpa [Accounts, status, owners, finishing] using accounts
  | create before after owners finishing trace =>
      cases phase with
      | unborn =>
          refine ⟨.live 0, [], ⟨after, ?_, ?_⟩, .create, by simpa using trace⟩
          · rw [owners, accounts.2.1]
          · exact fun who pending => accounts.2.2 who ((finishing who).mp pending)
      | live | dying | gone => simp [Accounts, before] at accounts
  | acquire old more before after owners shared held finishing trace =>
      obtain ⟨others, rfl, counted, owned⟩ := accounts.of_owned held
      have same : old = others + 1 := by simpa [before] using counted
      refine ⟨.live (others + more), [], ⟨?_, ?_, ?_⟩, .acquire others more,
        by simpa using trace⟩
      · rw [after, same, Nat.add_right_comm]
      · rw [owners, owned, Nat.add_right_comm]
      · exact fun who pending => accounts.2.2 who ((finishing who).mp pending)
  | release new fewer before after remains owners finishing trace =>
      obtain ⟨owned, ⟨others, rfl, same⟩ | ⟨who, rfl, same⟩⟩ :=
        accounts.of_counted before
      · obtain ⟨left, rfl⟩ : ∃ left, new = left + 1 := ⟨new - 1, by omega⟩
        have split : others = left + fewer := by omega
        subst split
        refine ⟨.live left, [], ⟨after, by omega, ?_⟩, .release left fewer,
          by simpa using trace⟩
        exact fun who pending => accounts.2.2 who ((finishing who).mp pending)
      · omega
  | lastRelease who before after owners finishing trace =>
      obtain ⟨owned, ⟨others, rfl, same⟩ | ⟨other, rfl, same⟩⟩ :=
        accounts.of_counted before
      · obtain rfl : others = 0 := by omega
        refine ⟨.dying who, [.lastRelease who], ⟨after, by omega, ?_⟩,
          .lastRelease who, trace⟩
        intro other
        rw [finishing other]
        simp [accounts.2.2 other]
      · omega
  | finalize who pending after owners finishing trace =>
      obtain rfl := accounts.of_finishing pending
      refine ⟨.gone, [.finalize who], ⟨after, ?_, ?_⟩, .finalize who, trace⟩
      · rw [owners, accounts.2.1]
      · intro other
        rw [finishing other, accounts.2.2 other]
        simp
  | takeOut who before after owners finishing trace =>
      obtain ⟨owned, ⟨others, rfl, same⟩ | ⟨other, rfl, same⟩⟩ :=
        accounts.of_counted before
      · obtain rfl : others = 0 := by omega
        refine ⟨.gone, [.takeOut who], ⟨after, by omega, ?_⟩, .takeOut who, trace⟩
        exact fun who pending => accounts.2.2 who ((finishing who).mp pending)
      · omega

/-! ## Counting the owners -/

theorem refs_le_inFlight (s : Sys N V S) (t : Fin N) (p : Nat) :
    (s.threads t).refs p ≤ s.inFlight p :=
  Finset.single_le_sum (f := fun x => (s.threads x).refs p)
    (fun _ _ => Nat.zero_le _) (Finset.mem_univ t)

theorem op_refs_le (thread : Thread V S) (p : Nat) :
    thread.op.refs p ≤ thread.refs p :=
  Nat.le_add_right _ _

@[simp]
theorem handle_refs_self (hd : Handle S) : hd.refs hd.p = 1 := by
  simp [Handle.refs, Pointer.refs]

@[simp]
theorem pointer_refs_self (ptr : Pointer S) : ptr.refs ptr.p = 1 := by
  simp [Pointer.refs]

theorem refs_of_rest_claim {rest : Rest V S} {p : Nat}
    (claim : rest.claim? = some p) : rest.refs p = 1 := by
  cases rest with
  | grant call ptr =>
      obtain rfl : ptr.p = p := by simpa [Rest.claim?] using claim
      exact pointer_refs_self ptr
  | done | value | unwind => simp [Rest.claim?] at claim

theorem refs_of_claim {op : Op V S} {p : Nat} (claim : op.claim? = some p) :
    1 ≤ op.refs p := by
  cases op with
  | tested call ptr loaded =>
      obtain ⟨_, rfl⟩ : loaded = 1 ∧ ptr.p = p := by simpa [Op.claim?] using claim
      exact (pointer_refs_self ptr).ge
  | moving ptr =>
      obtain rfl : ptr.p = p := by simpa [Op.claim?] using claim
      exact (pointer_refs_self ptr).ge
  | dropping ptr rest =>
      have owed : rest.refs p = 1 := refs_of_rest_claim claim
      simp [Op.refs, owed]
  | dropLoad ptr rest | dropSlow ptr rest =>
      have owed : rest.refs p = 1 := refs_of_rest_claim claim
      simp [Op.refs, owed]
  | idle | cloning | cloned => simp [Op.claim?] at claim

theorem Claimed.owned (claimed : s.Claimed p) : 0 < s.owners p := by
  rcases claimed with ⟨key, hd, found, _, rfl⟩ | ⟨t, claim⟩
  · have weight := SlotTable.le_weigh (Handle.refs hd.p) found
    have unfolded : s.liveHandles hd.p ≤ s.owners hd.p := by
      unfold owners
      omega
    rw [handle_refs_self] at weight
    exact lt_of_lt_of_le weight unfolded
  · have owned := refs_of_claim claim
    have thread := op_refs_le (s.threads t) p
    have all := refs_le_inFlight s t p
    unfold owners
    omega

theorem owned_of_stored {key : Nat} {hd : Handle S}
    (found : s.handles.get? key = some hd) : 0 < s.owners hd.p := by
  have weight := SlotTable.le_weigh (Handle.refs hd.p) found
  rw [handle_refs_self] at weight
  unfold owners liveHandles
  omega

/-- A handle that can be shared rules out every claim of sole ownership: the
claimant owns another reference. -/
theorem Sound.not_claimed (sound : s.Sound) {key : Nat} {hd : Handle S}
    (found : s.handles.get? key = some hd) (lendable : hd.lendable = true) :
    ¬ s.Claimed hd.p := by
  intro claimed
  have single := sound.sole _ claimed
  have weight := SlotTable.le_weigh (Handle.refs hd.p) found
  rw [handle_refs_self] at weight
  rcases claimed with ⟨other, claimant, stored, claims, same⟩ | ⟨t, claim⟩
  · have different : other ≠ key := by
      rintro rfl
      obtain rfl : claimant = hd := by simpa [stored] using found
      cases form : claimant.form <;> cases lent : claimant.lent <;>
        simp [Handle.sole, Handle.lendable, Handle.refKind, form, lent]
          at claims lendable
    have both := SlotTable.add_le_weigh (Handle.refs hd.p) different stored found
    rw [handle_refs_self, ← same, handle_refs_self, same] at both
    unfold owners liveHandles at single
    omega
  · have owned := refs_of_claim claim
    have thread := op_refs_le (s.threads t) hd.p
    have all := refs_le_inFlight s t hd.p
    unfold owners liveHandles at single
    omega

/-- An effect keeps every claim of sole ownership true if the only new claims
are on blocks with one owner. -/
theorem Sound.preserved (sound : s.Sound)
    (effects : ∀ p, s.Effect next p)
    (rooted : ∀ borrow, next.Borrows borrow → next.Roots borrow)
    (claims : ∀ p, next.Claimed p → s.Claimed p ∨ next.owners p = 1) :
    next.Sound where
  accounts p := by
    obtain ⟨phase, accounts, life⟩ := sound.accounts p
    obtain ⟨after, events, accounts', step, trace⟩ := (effects p).lives accounts
    exact ⟨after, accounts', trace ▸ life.next step⟩
  rooted := rooted
  sole p claimed := by
    rcases claims p claimed with before | single
    · have one := sound.sole p before
      have owned := claimed.owned
      obtain ⟨phase, accounts, _⟩ := sound.accounts p
      cases effects p with
      | quiet _ owners => omega
      | create absent _ owners =>
          cases phase with
          | unborn => have none := accounts.2.1; omega
          | live | dying | gone => simp [Accounts, absent] at accounts
      | acquire _ _ _ _ _ shared => exact absurd before shared
      | release new fewer counted _ remains owners => omega
      | lastRelease _ _ _ owners => omega
      | finalize _ _ _ owners => omega
      | takeOut _ _ _ owners => omega
    · exact single

theorem start_sound (N : Nat) (V S : Type) : (start N V S).Sound where
  accounts p := by
    refine ⟨.unborn, ⟨rfl, ?_, ?_⟩, .unborn⟩
    · simp [owners, liveHandles, inFlight, arcsLeft, start, Thread.refs, Op.refs,
        Heap.leakedAt]
    · intro who
      simp [Finishing, start, Op.finishing?]
  rooted borrow alive := by
    simp [Borrows, start, Thread.Holds, Op.source?] at alive
  sole p claimed := by
    simp [Claimed, start, Op.claim?] at claimed

end Sys

end BackdropArc
