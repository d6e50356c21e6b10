import BackdropArc.Disposal
import BackdropArc.OwnershipGraphs
import BackdropArc.PayloadDrops
import BackdropArc.UniqueAccess

/-!
# Handles inside of data

The data behind a handle may own further handles.  A handle is then either in a
variable of the program or stored in the data of some block, from where only
exclusive access to that block, a move of the data, or the destructor of the
data can take it.  As long as the data is changed through exclusive access
only, and not through cells, no block ever owns itself, and the counts agree
with what can be reached from the outside.
-/

namespace BackdropArc

open GuardedRuns CountedLifecycle OwnershipGraphs Relation

/-- A program together with the places of its handles: `place key` is the block
in whose data the handle is stored, if it is not in a variable. -/
structure Nest (N : Nat) (V S : Type) where
  sys : Sys N V S
  place : Nat → Option Nat

inductive NestAct (N : Nat) (V S : Type)
  /-- A step of the crate or the program.  The handles `into` are moved into the
  data of the block that the step allocates. -/
  | act (act : Act N V S) (into : List Nat)
  /-- Move a handle into the data behind `owner`, through `&mut`. -/
  | store (key owner : Nat)
  /-- Move a handle out of the data behind `owner`, through `&mut`. -/
  | take (key owner : Nat)
  /-- Move a handle out of data that was moved out of its block. -/
  | unpack (key : Nat)
  /-- A strategy drops data, and with it a handle that is stored there. -/
  | glue (key : Nat)
  deriving DecidableEq

variable {N : Nat} {V S : Type}

theorem Heap.length_leak (heap : Heap V S) (p references : Nat) :
    (heap.leak p references).length = heap.length := by
  unfold Heap.leak
  split
  · exact List.length_set
  · rfl

/-- An action that allocates takes no handle. -/
theorem Sys.spared_of_grown {word : MachineWord} {s s' : Sys N V S} {t : Fin N} {key : Nat}
    {act : Act N V S} (stepped : step word s (t, act) = .ok s')
    (grown : s'.heap.length = s.heap.length + 1) : act.takes key = false := by
  by_contra takes
  rcases step_cases stepped with ⟨rfl, _⟩ | ⟨_, called⟩
  · exact takes rfl
  · have same : s'.heap.length = s.heap.length := by
      cases called with
      | convert | drop | unique | intoInner | endGrant => rfl
      | forget => exact Heap.length_leak _ _ _
      | _ => exact absurd rfl takes
    omega

theorem Sys.present_of_step {word : MachineWord} {s s' : Sys N V S} {p : Nat}
    {move : Fin N × Act N V S} (stepped : step word s move = .ok s')
    (present : p < s.heap.length) : p < s'.heap.length := by
  rw [← Heap.fateAt_isSome]
  cases fateStep_of_step stepped present with
  | same _ fate => rwa [fate, Heap.fateAt_isSome]
  | moved _ _ after | backdropped _ _ _ after =>
      rw [after]
      rfl

/-- The handle that an action moves or changes. -/
def Act.exclusive? : Act N V S → Option Nat
  | .convert key _ | .drop key | .forget key | .unique _ key | .intoInner key
  | .write key _ | .endGrant key => some key
  | _ => none

/-- The handle that an action uses through a shared reference to it. -/
def Act.shared? : Act N V S → Option Nat
  | .borrow (.handle key) | .read (.handle key) | .count (.handle key)
  | .clone (.handle key) _ | .cloneMany (.handle key) _ | .enter (.handle key) _
  | .readMut key => some key
  | _ => none

namespace Nest

def start (N : Nat) (V S : Type) : Nest N V S where
  sys := .start N V S
  place _ := none

/-- Data may own the handle.  Raw pointers are not dropped with the data they are
stored in, so they stay in variables. -/
def storable (hd : Handle S) : Bool :=
  !hd.lent && decide (hd.form ≠ .raw)

/-- The handle under `key` may be owned by data. -/
def Storable (n : Nest N V S) (key : Nat) : Prop :=
  ∃ hd, n.sys.handles.get? key = some hd ∧ storable hd = true

/-- User code runs on thread `t`. -/
def user (n : Nest N V S) (t : Fin N) : Except Stop Unit :=
  match (n.sys.threads t).op with
  | .idle => .ok ()
  | _ => .error .refused

/-- A handle in a variable that may be moved into data. -/
def loose (n : Nest N V S) (key : Nat) : Except Stop Unit := do
  demand (n.place key = none) .refused
  let hd ← n.sys.free key
  demand (hd.form ≠ .raw) .refused

/-- Exclusive access to the data behind a handle in a variable. -/
def exclusive (n : Nest N V S) (owner : Nat) : Except Stop (Handle S) := do
  demand (n.place owner = none) .refused
  let hd ← demandSome (n.sys.handles.get? owner) .refused
  demand (hd.sole = true) .refused
  pure hd

/-- There may be shared references to the handle: it is in a variable, or in the
data of a block that has an owner. -/
def visible (n : Nest N V S) (key : Nat) : Bool :=
  (n.place key).all fun p =>
    match n.sys.heap.status p with
    | .counted (_ + 1) => true
    | _ => false

/-- The data of block `p` is being dropped by a strategy. -/
def destructing (n : Nest N V S) (p : Nat) : Bool :=
  match n.sys.heap.fateAt p with
  | some (.backdropped _) => true
  | _ => false

/-- The data of block `p` was moved out. -/
def movedOut (n : Nest N V S) (p : Nat) : Bool :=
  match n.sys.heap.fateAt p with
  | some .movedOut => true
  | _ => false

end Nest

/-- One step of a program with nested handles. -/
def nestedStep (word : MachineWord) (n : Nest N V S) (move : Fin N × NestAct N V S) :
    Except Stop (Nest N V S) :=
  match move with
  | (t, .act act into) => do
      demand (act.exclusive?.bind n.place = none) .refused
      demand (act.shared?.all n.visible = true) .refused
      into.forM n.loose
      let sys ← step word n.sys (t, act)
      demand (into = [] ∨ sys.heap.length = n.sys.heap.length + 1) .refused
      pure {
        sys := sys
        place := fun key => if key ∈ into then some n.sys.heap.length else n.place key }
  | (t, .store key owner) => do
      n.user t
      n.loose key
      let hd ← n.exclusive owner
      demand (key ≠ owner) .refused
      pure { n with place := Function.update n.place key (some hd.p) }
  | (t, .take key owner) => do
      n.user t
      let hd ← n.exclusive owner
      demand (n.place key = some hd.p) .refused
      let _ ← n.sys.free key
      pure { n with place := Function.update n.place key none }
  | (t, .unpack key) => do
      n.user t
      let p ← demandSome (n.place key) .refused
      demand (n.movedOut p = true) .refused
      pure { n with place := Function.update n.place key none }
  | (t, .glue key) => do
      let p ← demandSome (n.place key) .refused
      demand (n.destructing p = true) .refused
      let sys ← step word n.sys (t, .drop key)
      pure { sys := sys, place := Function.update n.place key none }

/-- The successful steps of thread `t`. -/
inductive Nested (word : MachineWord) (n : Nest N V S) (t : Fin N) :
    NestAct N V S → Nest N V S → Prop
  | act {act : Act N V S} {into : List Nat} {sys : Sys N V S} :
      step word n.sys (t, act) = .ok sys →
        (∀ key p, n.place key = some p → act.takes key = false) →
          (∀ key ∈ into, n.place key = none ∧ n.Storable key) →
            (into = [] ∨ sys.heap.length = n.sys.heap.length + 1) →
              Nested word n t (.act act into) {
                sys := sys
                place := fun key =>
                  if key ∈ into then some n.sys.heap.length else n.place key }
  | store {key owner : Nat} {hd : Handle S} :
      n.place key = none → n.Storable key → n.place owner = none →
        n.sys.handles.get? owner = some hd → hd.sole = true → key ≠ owner →
          Nested word n t (.store key owner)
            { n with place := Function.update n.place key (some hd.p) }
  | take {key owner : Nat} {hd : Handle S} :
      n.sys.handles.get? owner = some hd → hd.sole = true → n.place key = some hd.p →
        Nested word n t (.take key owner)
          { n with place := Function.update n.place key none }
  | unpack {key p : Nat} :
      n.place key = some p → n.movedOut p = true →
        Nested word n t (.unpack key)
          { n with place := Function.update n.place key none }
  | glue {key p : Nat} {sys : Sys N V S} :
      n.place key = some p → n.destructing p = true →
        step word n.sys (t, .drop key) = .ok sys →
          Nested word n t (.glue key)
            { sys := sys, place := Function.update n.place key none }

namespace Nest

variable {n next : Nest N V S} {t : Fin N} {word : MachineWord} {key p q : Nat}
  {hd : Handle S}

theorem exclusive_of_takes {act : Act N V S} (takes : act.takes key = true) :
    act.exclusive? = some key := by
  cases act <;> simp [Act.takes, Act.exclusive?] at takes ⊢ <;> exact takes

theorem loose_eq_ok (free : n.loose key = .ok ()) :
    n.place key = none ∧ n.Storable key := by
  obtain ⟨_, outside, rest⟩ := bind_eq_ok.mp free
  obtain ⟨hd, freed, form⟩ := bind_eq_ok.mp rest
  obtain ⟨found, unlent, _⟩ := Sys.free_eq_ok.mp freed
  refine ⟨demand_eq_ok.mp outside, hd, found, ?_⟩
  simp [storable, unlent, demand_eq_ok.mp form]

theorem loose_of_forM {into : List Nat} (free : into.forM n.loose = .ok ⟨⟩) :
    ∀ key ∈ into, n.place key = none ∧ n.Storable key := by
  induction into with
  | nil => simp
  | cons first rest ih =>
      obtain ⟨_, here, later⟩ := bind_eq_ok.mp free
      intro key member
      rcases List.mem_cons.mp member with rfl | member
      · exact loose_eq_ok here
      · exact ih later key member

theorem exclusive_eq_ok {owner : Nat} (access : n.exclusive owner = .ok hd) :
    n.place owner = none ∧ n.sys.handles.get? owner = some hd ∧ hd.sole = true := by
  obtain ⟨_, outside, rest⟩ := bind_eq_ok.mp access
  obtain ⟨other, found, rest⟩ := bind_eq_ok.mp rest
  obtain ⟨_, sole, result⟩ := bind_eq_ok.mp rest
  obtain rfl := Except.ok.inj result
  exact ⟨demand_eq_ok.mp outside, demandSome_eq_ok.mp found, demand_eq_ok.mp sole⟩

theorem nested_of_step {act : NestAct N V S}
    (stepped : nestedStep word n (t, act) = .ok next) : Nested word n t act next := by
  cases act with
  | act act into =>
      obtain ⟨_, outside, rest⟩ := bind_eq_ok.mp stepped
      obtain ⟨_, _, rest⟩ := bind_eq_ok.mp rest
      obtain ⟨_, free, rest⟩ := bind_eq_ok.mp rest
      obtain ⟨sys, inner, rest⟩ := bind_eq_ok.mp rest
      obtain ⟨_, allocated, result⟩ := bind_eq_ok.mp rest
      obtain rfl := Except.ok.inj result
      refine .act inner ?_ (loose_of_forM free) (demand_eq_ok.mp allocated)
      intro key p stored
      by_contra takes
      have used := exclusive_of_takes (Bool.eq_true_of_not_eq_false takes)
      simp [demand_eq_ok, used, stored] at outside
  | store key owner =>
      obtain ⟨_, _, rest⟩ := bind_eq_ok.mp stepped
      obtain ⟨_, free, rest⟩ := bind_eq_ok.mp rest
      obtain ⟨hd, access, rest⟩ := bind_eq_ok.mp rest
      obtain ⟨_, different, result⟩ := bind_eq_ok.mp rest
      obtain rfl := Except.ok.inj result
      obtain ⟨outside, found⟩ := loose_eq_ok free
      obtain ⟨here, owner, sole⟩ := exclusive_eq_ok access
      exact .store outside found here owner sole (demand_eq_ok.mp different)
  | take key owner =>
      obtain ⟨_, _, rest⟩ := bind_eq_ok.mp stepped
      obtain ⟨hd, access, rest⟩ := bind_eq_ok.mp rest
      obtain ⟨_, stored, rest⟩ := bind_eq_ok.mp rest
      obtain ⟨_, _, result⟩ := bind_eq_ok.mp rest
      obtain rfl := Except.ok.inj result
      obtain ⟨_, owner, sole⟩ := exclusive_eq_ok access
      exact .take owner sole (demand_eq_ok.mp stored)
  | unpack key =>
      obtain ⟨_, _, rest⟩ := bind_eq_ok.mp stepped
      obtain ⟨p, stored, rest⟩ := bind_eq_ok.mp rest
      obtain ⟨_, moved, result⟩ := bind_eq_ok.mp rest
      obtain rfl := Except.ok.inj result
      exact .unpack (demandSome_eq_ok.mp stored) (demand_eq_ok.mp moved)
  | glue key =>
      obtain ⟨p, stored, rest⟩ := bind_eq_ok.mp stepped
      obtain ⟨_, dropping, rest⟩ := bind_eq_ok.mp rest
      obtain ⟨sys, inner, result⟩ := bind_eq_ok.mp rest
      obtain rfl := Except.ok.inj result
      exact .glue (demandSome_eq_ok.mp stored) (demand_eq_ok.mp dropping) inner

/-- The data of block `p` owns a handle to block `q`. -/
def Edge (n : Nest N V S) (p q : Nat) : Prop :=
  ∃ key hd, n.place key = some p ∧ n.sys.handles.get? key = some hd ∧ hd.p = q

/-- The steps that duplicate no reference. -/
def Keeps (n : Nest N V S) (move : Fin N × NestAct N V S) : Prop :=
  match move.2 with
  | .act act _ => n.sys.Keeps (move.1, act)
  | _ => True

instance (n : Nest N V S) (move : Fin N × NestAct N V S) : Decidable (n.Keeps move) :=
  match move with
  | (t, .act act _) => inferInstanceAs (Decidable (n.sys.Keeps (t, act)))
  | (_, .store _ _) | (_, .take _ _) | (_, .unpack _) | (_, .glue _) =>
      inferInstanceAs (Decidable True)

/-- Stored handles exist, and so do the blocks whose data owns them. -/
structure Placed (n : Nest N V S) : Prop where
  found : ∀ key p, n.place key = some p → n.Storable key
  inside : ∀ key p, n.place key = some p → p < n.sys.heap.length

theorem inside_of_stored (sound : n.sys.Sound) (found : n.sys.handles.get? key = some hd) :
    hd.p < n.sys.heap.length := by
  by_contra outside
  have absent := Heap.status_eq_absent.mpr (Nat.le_of_not_lt outside)
  exact sound.not_absent_of_owned (Sys.owned_of_stored found) absent

/-- No edge enters a block behind a handle that is in a variable and stands for
sole ownership. -/
theorem unentered_of_sole (sound : n.sys.Sound) (outside : n.place key = none)
    (found : n.sys.handles.get? key = some hd) (sole : hd.sole = true) :
    ¬ n.Edge p hd.p := by
  rintro ⟨other, stored, placed, here, same⟩
  obtain rfl := (sound.alone found sole).handles other stored here same
  rw [outside] at placed
  cases placed

/-- A stored handle after a step of the crate was there before the step, and lies
where it lay or in the new block. -/
theorem stored_of_act {act : Act N V S} {into : List Nat} {sys : Sys N V S}
    (placed : n.Placed) (stepped : step word n.sys (t, act) = .ok sys)
    (spared : ∀ key p, n.place key = some p → act.takes key = false)
    (free : ∀ key ∈ into, n.place key = none ∧ n.Storable key)
    (allocates : into = [] ∨ sys.heap.length = n.sys.heap.length + 1)
    (here : (if key ∈ into then some n.sys.heap.length else n.place key) = some p) :
    ∃ hd, n.sys.handles.get? key = some hd ∧ storable hd = true ∧
      sys.handles.get? key = some hd ∧
        (p = n.sys.heap.length ∧ key ∈ into ∨ n.place key = some p) := by
  split at here
  · next member =>
      have grown := allocates.resolve_left (List.ne_nil_of_mem member)
      obtain ⟨_, hd, found, fits⟩ := free key member
      have kept := Sys.kept_of_step stepped found (Sys.spared_of_grown stepped grown)
      exact ⟨hd, found, fits, kept, Or.inl ⟨(Option.some.inj here).symm, member⟩⟩
  · obtain ⟨hd, found, fits⟩ := placed.found key p here
    exact ⟨hd, found, fits, Sys.kept_of_step stepped found (spared key p here), Or.inr here⟩

/-- What every state of a program with nested handles satisfies. -/
structure Tended (n : Nest N V S) : Prop where
  sound : n.sys.Sound
  placed : n.Placed
  acyclic : Acyclic n.Edge

theorem start_tended : (start N V S).Tended where
  sound := Sys.start_sound N V S
  placed := by constructor <;> simp [start]
  acyclic vertex cycle := by
    obtain ⟨_, _, _, stored, _⟩ := entered_of_path cycle
    simp [start] at stored

theorem Tended.acted (tended : n.Tended) {act : Act N V S} {into : List Nat} {sys : Sys N V S}
    (sound : sys.Sound) (stepped : step word n.sys (t, act) = .ok sys)
    (spared : ∀ key p, n.place key = some p → act.takes key = false)
    (free : ∀ key ∈ into, n.place key = none ∧ n.Storable key)
    (allocates : into = [] ∨ sys.heap.length = n.sys.heap.length + 1) :
    Tended { sys := sys, place := fun key =>
      if key ∈ into then some n.sys.heap.length else n.place key } where
  sound := sound
  placed := by
    constructor
    case found =>
      intro key p here
      obtain ⟨hd, _, fits, kept, _⟩ :=
        stored_of_act tended.placed stepped spared free allocates here
      exact ⟨hd, kept, fits⟩
    case inside =>
      intro key p here
      obtain ⟨hd, _, _, _, ⟨rfl, member⟩ | stored⟩ :=
        stored_of_act tended.placed stepped spared free allocates here
      · have grown := allocates.resolve_left (List.ne_nil_of_mem member)
        simp only
        omega
      · exact Sys.present_of_step stepped (tended.placed.inside key p stored)
  acyclic := by
    -- only the new block gets edges, and nothing points to it yet
    apply tended.acyclic.extend
    case added =>
      rintro p q ⟨key, hd, here, found, rfl⟩
      obtain ⟨_, before, _, kept, ⟨rfl, _⟩ | stored⟩ :=
        stored_of_act tended.placed stepped spared free allocates here
      · exact Or.inl rfl
      · obtain rfl := Option.some.inj (kept.symm.trans found)
        exact Or.inr ⟨key, _, stored, before, rfl⟩
    case unentered =>
      rintro p ⟨key, hd, here, found, same⟩
      obtain ⟨_, before, _, kept, _⟩ :=
        stored_of_act tended.placed stepped spared free allocates here
      obtain rfl := Option.some.inj (kept.symm.trans found)
      have inside := inside_of_stored tended.sound before
      omega

/-- A handle moves out of the data that it was stored in. -/
theorem Tended.freed (tended : n.Tended) {sys : Sys N V S} (sound : sys.Sound)
    (kept : ∀ other hd, other ≠ key → n.sys.handles.get? other = some hd →
      sys.handles.get? other = some hd)
    (grows : n.sys.heap.length ≤ sys.heap.length) :
    Tended { sys := sys, place := Function.update n.place key none } := by
  have before {other p : Nat} (stored : Function.update n.place key none other = some p) :
        ∃ hd, n.place other = some p ∧ n.sys.handles.get? other = some hd ∧
          storable hd = true ∧ sys.handles.get? other = some hd := by
    by_cases same : other = key
    · simp [same] at stored
    · rw [Function.update_of_ne same] at stored
      obtain ⟨hd, found, fits⟩ := tended.placed.found other p stored
      exact ⟨hd, stored, found, fits, kept other hd same found⟩
  constructor
  case sound => exact sound
  case placed =>
    constructor
    case found =>
      intro other p stored
      obtain ⟨hd, _, _, fits, here⟩ := before stored
      exact ⟨hd, here, fits⟩
    case inside =>
      intro other p stored
      obtain ⟨_, earlier, _, _, _⟩ := before stored
      exact (tended.placed.inside other p earlier).trans_le grows
  case acyclic =>
    apply tended.acyclic.mono
    rintro p q ⟨other, hd, stored, here, rfl⟩
    obtain ⟨_, earlier, found, _, later⟩ := before stored
    obtain rfl := Option.some.inj (later.symm.trans here)
    exact ⟨other, _, earlier, found, rfl⟩

/-- A handle moves into data that only the handle under `owner` leads to. -/
theorem Tended.stored (tended : n.Tended) {owner : Nat}
    (found : n.Storable key) (outside : n.place owner = none)
    (access : n.sys.handles.get? owner = some hd) (sole : hd.sole = true)
    (different : key ≠ owner) :
    Tended { n with place := Function.update n.place key (some hd.p) } := by
  have outside' : Function.update n.place key (some hd.p) owner = none := by
    rw [Function.update_of_ne (Ne.symm different), outside]
  have before {other p : Nat}
      (stored : Function.update n.place key (some hd.p) other = some p) :
      other = key ∧ p = hd.p ∨ n.place other = some p := by
    by_cases same : other = key
    · simp only [same, Function.update_self, Option.some.injEq] at stored
      exact Or.inl ⟨same, stored.symm⟩
    · rw [Function.update_of_ne same] at stored
      exact Or.inr stored
  constructor
  case sound => exact tended.sound
  case placed =>
    constructor
    case found =>
      intro other p stored
      rcases before stored with ⟨rfl, _⟩ | earlier
      · exact found
      · exact tended.placed.found other p earlier
    case inside =>
      intro other p stored
      rcases before stored with ⟨_, rfl⟩ | earlier
      · exact inside_of_stored tended.sound access
      · exact tended.placed.inside other p earlier
  case acyclic =>
    apply tended.acyclic.extend
    case added =>
      rintro p q ⟨other, moved, stored, here, rfl⟩
      rcases before stored with ⟨_, rfl⟩ | earlier
      · exact Or.inl rfl
      · exact Or.inr ⟨other, moved, earlier, here, rfl⟩
    case unentered =>
      intro p
      exact unentered_of_sole (n := { n with place := _ }) tended.sound outside' access sole

/-! ## The run -/

theorem Tended.stepped (tended : n.Tended) (roomy : n.sys.Roomy word)
    {move : Fin N × NestAct N V S} (keeps : n.Keeps move)
    (stepped : nestedStep word n move = .ok next) : next.Tended := by
  obtain ⟨t, act⟩ := move
  cases nested_of_step stepped with
  | act inner spared free allocates =>
      exact tended.acted (tended.sound.stepped roomy keeps inner) inner spared free allocates
  | store _ found outside access sole different =>
      exact tended.stored found outside access sole different
  | take | unpack =>
      exact tended.freed tended.sound (fun _ _ _ found => found) le_rfl
  | @glue key p sys _ _ inner =>
      apply tended.freed (tended.sound.stepped roomy ⟨rfl, rfl⟩ inner)
      · intro other hd different found
        exact Sys.kept_of_step inner found (by simp [Act.takes, Ne.symm different])
      · by_contra shorter
        rw [not_le] at shorter
        exact lt_irrefl _ (Sys.present_of_step inner shorter)

/-- What a step does to the system of counts and handles is nothing or a step of
the crate. -/
theorem sys_of_nested {act : NestAct N V S} (nested : Nested word n t act next) :
    next.sys = n.sys ∨ ∃ act, step word n.sys (t, act) = .ok next.sys := by
  cases nested with
  | act inner => exact Or.inr ⟨_, inner⟩
  | store | take | unpack => exact Or.inl rfl
  | glue _ _ inner => exact Or.inr ⟨_, inner⟩

theorem tended_of_few (few : N < word.isizeMax)
    (run : Reaches (nestedStep word) Keeps (start N V S) n) : n.Tended := by
  suffices all : n.Tended ∧ n.sys.WithinLimit word from all.1
  apply run.invariant
  · refine ⟨start_tended, fun p count counted => ?_⟩
    simp [start, Sys.start, Heap.status] at counted
  · rintro current ⟨t, act⟩ next ⟨tended, limit⟩ keeps stepped
    refine ⟨tended.stepped (limit.roomy few) keeps stepped, ?_⟩
    rcases sys_of_nested (nested_of_step stepped) with same | ⟨_, inner⟩
    · rwa [same]
    · exact limit.stepped tended.sound inner

/-! ## Reachability -/

/-- Block `p` was not given up: its count is positive. -/
def Alive (n : Nest N V S) (p : Nat) : Prop :=
  ∃ count, n.sys.heap.status p = .counted (count + 1)

theorem alive_iff (sound : n.sys.Sound) : n.Alive p ↔ 0 < n.sys.owners p := by
  constructor
  · rintro ⟨count, counted⟩
    rw [sound.owners_of_counted counted]
    omega
  · intro owned
    obtain ⟨count, same⟩ := Nat.exists_eq_succ_of_ne_zero owned.ne'
    exact ⟨count, by rw [sound.counted_of_owned owned, same]⟩

/-- Something else than the data of a block that is alive refers to block `p`:
a variable, a call in progress, an iterator, a leak, or data that is on its way
out. -/
def Rooted (n : Nest N V S) (p : Nat) : Prop :=
  0 < n.sys.inFlight p ∨ 0 < n.sys.arcsLeft p ∨ 0 < n.sys.heap.leakedAt p ∨
    ∃ key hd, n.sys.handles.get? key = some hd ∧ hd.p = p ∧
      ∀ q, n.place key = some q → ¬ n.Alive q

/-- The data of block `p`, which is alive, owns a handle to block `q`. -/
def Holds (n : Nest N V S) (p q : Nat) : Prop :=
  n.Alive p ∧ n.Edge p q

theorem Rooted.owned (rooted : n.Rooted p) : 0 < n.sys.owners p := by
  rcases rooted with inFlight | reserved | leaked | ⟨key, hd, found, rfl, _⟩
  · unfold Sys.owners
    omega
  · unfold Sys.owners
    omega
  · unfold Sys.owners
    omega
  · exact Sys.owned_of_stored found

theorem Holds.owned (holds : n.Holds p q) : 0 < n.sys.owners q := by
  obtain ⟨_, key, hd, _, found, rfl⟩ := holds
  exact Sys.owned_of_stored found

theorem stored_of_owned (owned : 0 < n.sys.owners p) (inFlight : n.sys.inFlight p = 0)
    (arcsLeft : n.sys.arcsLeft p = 0) (leaked : n.sys.heap.leakedAt p = 0) :
    ∃ key hd, n.sys.handles.get? key = some hd ∧ hd.p = p := by
  have heavy : 0 < n.sys.handles.weigh (Handle.refs p) := by
    unfold Sys.owners Sys.liveHandles at owned
    omega
  obtain ⟨key, hd, found, counts⟩ := SlotTable.exists_of_weigh_pos heavy
  refine ⟨key, hd, found, ?_⟩
  by_contra elsewhere
  simp [Handle.refs, Pointer.refs, elsewhere] at counts

/-- Whoever owns a block that is alive lies outside, or in another such block. -/
theorem rooted_or_held (owned : 0 < n.sys.owners p) :
    n.Rooted p ∨ ∃ q, n.Holds q p := by
  by_cases rooted : n.Rooted p
  · exact Or.inl rooted
  · right
    have outside := rooted
    simp only [Rooted, not_or, Nat.not_lt, Nat.le_zero] at outside
    obtain ⟨inFlight, arcsLeft, leaked, inside⟩ := outside
    obtain ⟨key, hd, found, rfl⟩ := stored_of_owned owned inFlight arcsLeft leaked
    by_contra unheld
    apply inside
    refine ⟨key, hd, found, rfl, fun q stored alive => ?_⟩
    exact unheld ⟨q, alive, key, hd, stored, found, rfl⟩

theorem Tended.alive_iff_reached (tended : n.Tended) (p : Nat) :
    n.Alive p ↔ ∃ root, n.Rooted root ∧ ReflTransGen n.Holds root p := by
  constructor
  · intro alive
    have finite : {q | n.Alive q}.Finite := by
      apply (Set.finite_lt_nat n.sys.heap.length).subset
      rintro q ⟨count, counted⟩
      by_contra outside
      rw [Heap.status_eq_absent.mpr (Nat.le_of_not_lt outside)] at counted
      cases counted
    have acyclic : Acyclic n.Holds := tended.acyclic.mono fun _ _ holds => holds.2
    apply acyclic.reached finite _ alive
    intro q alive
    rcases rooted_or_held ((alive_iff tended.sound).mp alive) with rooted | ⟨r, holds⟩
    · exact Or.inl rooted
    · exact Or.inr ⟨r, holds.1, holds⟩
  · rintro ⟨root, rooted, path⟩
    rw [alive_iff tended.sound]
    cases path with
    | refl => exact rooted.owned
    | tail _ last => exact last.owned

/-- The program is over: no call is in progress, and what handles are left are
stored in the data of blocks that are alive. -/
structure AtRest (n : Nest N V S) : Prop where
  threads : ∀ t, n.sys.threads t = ⟨.idle, []⟩
  iters : ∀ key iter, n.sys.iters.get? key = some iter → iter.arcsLeft = 0
  unleaked : ∀ block ∈ n.sys.heap, block.leaked = 0
  handles : ∀ key hd, n.sys.handles.get? key = some hd →
    ∃ q, n.place key = some q ∧ n.Alive q

theorem AtRest.unrooted (rest : n.AtRest) : ¬ n.Rooted p := by
  rintro (inFlight | reserved | leaked | ⟨key, hd, found, _, outside⟩)
  · have none : n.sys.inFlight p = 0 :=
      Finset.sum_eq_zero fun t _ => by rw [rest.threads t]; rfl
    omega
  · obtain ⟨key, iter, found, counts⟩ := SlotTable.exists_of_weigh_pos reserved
    simp [ArcCloneIter.refs, rest.iters key iter found] at counts
  · unfold Heap.leakedAt at leaked
    cases here : n.sys.heap[p]? with
    | none => simp [here] at leaked
    | some block =>
        have none := rest.unleaked block (List.mem_of_getElem? here)
        simp [here, none] at leaked
  · obtain ⟨q, stored, alive⟩ := rest.handles key hd found
    exact outside q stored alive

end Nest

end BackdropArc
