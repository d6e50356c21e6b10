import Mathlib.Algebra.BigOperators.Group.List.Basic
import Mathlib.Data.List.GetD
import Mathlib.Tactic.Ring

/-!
# Tables with stable keys

A slot table stores entries under numeric keys.  Inserting takes the next
fresh slot, removing leaves an empty slot behind, and a key is never handed
out twice.  The weight of a table is the sum of a natural-valued measure over
its entries; every table operation changes it by exactly the weight of the
entries it touches.
-/

/-- Entries under stable keys; a removed entry leaves its slot empty. -/
structure SlotTable (α : Type*) where
  slots : List (Option α)

namespace SlotTable

variable {α : Type*}

def empty : SlotTable α :=
  ⟨[]⟩

/-- The key that the next insertion uses. -/
def nextKey (table : SlotTable α) : Nat :=
  table.slots.length

def get? (table : SlotTable α) (key : Nat) : Option α :=
  table.slots[key]?.join

def insert (table : SlotTable α) (entry : α) : SlotTable α :=
  ⟨table.slots ++ [some entry]⟩

def erase (table : SlotTable α) (key : Nat) : SlotTable α :=
  ⟨table.slots.set key none⟩

def replace (table : SlotTable α) (key : Nat) (entry : α) : SlotTable α :=
  ⟨table.slots.set key (some entry)⟩

def any (test : α → Bool) (table : SlotTable α) : Bool :=
  table.slots.any (Option.any test)

def map {β : Type*} (change : α → β) (table : SlotTable α) : SlotTable β :=
  ⟨table.slots.map (Option.map change)⟩

/-- The sum of `measure` over all entries. -/
def weigh (measure : α → Nat) (table : SlotTable α) : Nat :=
  (table.slots.map (Option.elim · 0 measure)).sum

/-- Insert the same entry `copies` times. -/
def insertMany (table : SlotTable α) (entry : α) (copies : Nat) : SlotTable α :=
  ⟨table.slots ++ List.replicate copies (some entry)⟩

/-- The weight found under one key, zero for an empty slot. -/
def weighAt (measure : α → Nat) (table : SlotTable α) (key : Nat) : Nat :=
  (table.get? key).elim 0 measure

@[simp]
theorem get?_empty (key : Nat) : (empty : SlotTable α).get? key = none := by
  simp [empty, get?]

@[simp]
theorem weigh_empty (measure : α → Nat) :
    weigh measure (empty : SlotTable α) = 0 :=
  rfl

theorem lt_nextKey {table : SlotTable α} {key : Nat} {entry : α}
    (found : table.get? key = some entry) : key < table.nextKey := by
  by_contra outside
  have missing : table.slots[key]? = none :=
    List.getElem?_eq_none (by simpa [nextKey] using outside)
  simp [get?, missing] at found

theorem get?_insert (table : SlotTable α) (entry : α) (key : Nat) :
    (table.insert entry).get? key =
      if key = table.nextKey then some entry else table.get? key := by
  unfold insert get? nextKey
  rcases Nat.lt_trichotomy key table.slots.length with before | same | after
  · rw [List.getElem?_append_left before, if_neg (by omega)]
  · simp [same]
  · rw [if_neg (by omega), List.getElem?_eq_none (by simp; omega),
      List.getElem?_eq_none (by omega)]

@[simp]
theorem get?_insert_nextKey (table : SlotTable α) (entry : α) :
    (table.insert entry).get? table.nextKey = some entry := by
  simp [get?_insert]

theorem get?_insert_of_found {table : SlotTable α} {key : Nat} {found : α}
    (here : table.get? key = some found) (entry : α) :
    (table.insert entry).get? key = some found := by
  rw [get?_insert, if_neg (Nat.ne_of_lt (lt_nextKey here)), here]

theorem get?_nextKey (table : SlotTable α) : table.get? table.nextKey = none := by
  by_contra stored
  obtain ⟨entry, found⟩ := Option.ne_none_iff_exists'.mp stored
  exact absurd (lt_nextKey found) (Nat.lt_irrefl _)

@[simp]
theorem nextKey_insert (table : SlotTable α) (entry : α) :
    (table.insert entry).nextKey = table.nextKey + 1 := by
  simp [nextKey, insert]

@[simp]
theorem nextKey_erase (table : SlotTable α) (key : Nat) :
    (table.erase key).nextKey = table.nextKey := by
  simp [nextKey, erase]

@[simp]
theorem nextKey_replace (table : SlotTable α) (key : Nat) (entry : α) :
    (table.replace key entry).nextKey = table.nextKey := by
  simp [nextKey, replace]

@[simp]
theorem insertMany_zero (table : SlotTable α) (entry : α) :
    table.insertMany entry 0 = table := by
  simp [insertMany]

theorem insertMany_succ (table : SlotTable α) (entry : α) (copies : Nat) :
    table.insertMany entry (copies + 1) = (table.insert entry).insertMany entry copies := by
  simp [insertMany, insert, List.replicate_succ]

theorem get?_erase (table : SlotTable α) (erased key : Nat) :
    (table.erase erased).get? key =
      if key = erased then none else table.get? key := by
  unfold erase get?
  rw [List.getElem?_set]
  by_cases same : key = erased
  · subst same
    by_cases inside : key < table.slots.length <;> simp [inside]
  · simp [same, Ne.symm same]

theorem get?_of_insert {table : SlotTable α} {entry stored : α} {key : Nat}
    (found : (table.insert entry).get? key = some stored) :
    stored = entry ∨ table.get? key = some stored := by
  rw [get?_insert] at found
  split at found
  · exact Or.inl (Option.some.inj found).symm
  · exact Or.inr found

theorem get?_of_erase {table : SlotTable α} {stored : α} {erased key : Nat}
    (found : (table.erase erased).get? key = some stored) :
    table.get? key = some stored := by
  rw [get?_erase] at found
  split at found
  · cases found
  · exact found

theorem get?_replace {table : SlotTable α} {replaced : Nat} {old : α}
    (found : table.get? replaced = some old) (entry : α) (key : Nat) :
    (table.replace replaced entry).get? key =
      if key = replaced then some entry else table.get? key := by
  have inside : replaced < table.slots.length := lt_nextKey found
  unfold replace get?
  rw [List.getElem?_set]
  by_cases same : key = replaced
  · subst same
    simp [inside]
  · simp [same, Ne.symm same]

@[simp]
theorem replace_replace (table : SlotTable α) (key : Nat) (first second : α) :
    (table.replace key first).replace key second = table.replace key second := by
  simp [replace]

theorem replace_insert (table : SlotTable α) (first second : α) :
    (table.insert first).replace table.nextKey second = table.insert second := by
  simp [replace, insert, nextKey]

@[simp]
theorem erase_replace (table : SlotTable α) (key : Nat) (entry : α) :
    (table.replace key entry).erase key = table.erase key := by
  simp [replace, erase]

theorem replace_self {table : SlotTable α} {key : Nat} {entry : α}
    (found : table.get? key = some entry) : table.replace key entry = table := by
  have inside : key < table.slots.length := lt_nextKey found
  have here : table.slots[key] = some entry := by
    simpa [get?, List.getElem?_eq_getElem inside] using found
  unfold replace
  rw [← here, List.set_getElem_self]

@[simp]
theorem get?_map {β : Type*} (change : α → β) (table : SlotTable α) (key : Nat) :
    (table.map change).get? key = (table.get? key).map change := by
  simp only [map, get?, List.getElem?_map]
  cases table.slots[key]? with
  | none => rfl
  | some slot => rfl

@[simp]
theorem map_insert {β : Type*} (change : α → β) (table : SlotTable α) (entry : α) :
    (table.insert entry).map change = (table.map change).insert (change entry) := by
  simp [map, insert]

@[simp]
theorem map_erase {β : Type*} (change : α → β) (table : SlotTable α) (key : Nat) :
    (table.erase key).map change = (table.map change).erase key := by
  simp [map, erase, List.map_set]

theorem map_congr {β : Type*} {change other : α → β} {table : SlotTable α}
    (agree : ∀ key entry, table.get? key = some entry → change entry = other entry) :
    table.map change = table.map other := by
  unfold map
  congr 1
  refine List.map_congr_left fun slot member => ?_
  cases slot with
  | none => rfl
  | some entry =>
      obtain ⟨key, inside, here⟩ := List.mem_iff_getElem.mp member
      have found : table.get? key = some entry := by
        simp [get?, List.getElem?_eq_getElem inside, here]
      exact congrArg some (agree key entry found)

theorem any_eq_true {test : α → Bool} {table : SlotTable α} :
    table.any test = true ↔
      ∃ key entry, table.get? key = some entry ∧ test entry = true := by
  unfold any get?
  rw [List.any_eq_true]
  constructor
  · rintro ⟨slot, member, passes⟩
    obtain ⟨entry, rfl, passes⟩ := (Option.any_eq_true _ _).mp passes
    obtain ⟨key, inside, here⟩ := List.mem_iff_getElem.mp member
    exact ⟨key, entry, by simp [List.getElem?_eq_getElem inside, here], passes⟩
  · rintro ⟨key, entry, found, passes⟩
    refine ⟨some entry, ?_, by simpa using passes⟩
    apply List.mem_of_getElem? (i := key)
    cases slot : table.slots[key]? with
    | none => simp [slot] at found
    | some content => simpa [slot] using found

theorem any_eq_false {test : α → Bool} {table : SlotTable α}
    (none : table.any test = false) {key : Nat} {entry : α}
    (found : table.get? key = some entry) : test entry = false := by
  by_contra passes
  have present : table.any test = true :=
    any_eq_true.mpr ⟨key, entry, found, by simpa using passes⟩
  simp [none] at present

@[simp]
theorem weigh_insert (measure : α → Nat) (table : SlotTable α) (entry : α) :
    weigh measure (table.insert entry) = weigh measure table + measure entry := by
  simp [weigh, insert]

private theorem sum_map_set (weight : Option α → Nat)
    (slots : List (Option α)) (key : Nat) (slot : Option α)
    (inside : key < slots.length) :
    (((slots.set key slot).map weight).sum : Int) =
      (slots.map weight).sum - weight slots[key] + weight slot := by
  induction slots generalizing key with
  | nil => simp at inside
  | cons head tail ih =>
      cases key with
      | zero => simp; ring
      | succ key =>
          have tailSum := ih key (by simpa using inside)
          simp only [List.set_cons_succ, List.map_cons, List.sum_cons,
            List.getElem_cons_succ, Nat.cast_add, tailSum]
          ring

/-- Erasing takes away the weight found under the key. -/
@[simp]
theorem weigh_erase (measure : α → Nat) (table : SlotTable α) (key : Nat) :
    (weigh measure (table.erase key) : Int) =
      weigh measure table - weighAt measure table key := by
  unfold weigh erase weighAt get?
  by_cases inside : key < table.slots.length
  · rw [sum_map_set _ _ _ _ inside, List.getElem?_eq_getElem inside]
    simp
  · rw [List.set_eq_of_length_le (by omega),
      List.getElem?_eq_none (by omega)]
    simp

/-- Replacing exchanges the weight found under the key. -/
theorem weigh_replace (measure : α → Nat) {table : SlotTable α} {key : Nat}
    {old : α} (found : table.get? key = some old) (entry : α) :
    (weigh measure (table.replace key entry) : Int) =
      weigh measure table - measure old + measure entry := by
  have inside : key < table.slots.length := lt_nextKey found
  have here : table.slots[key] = some old := by
    simpa [get?, List.getElem?_eq_getElem inside] using found
  unfold weigh replace
  rw [sum_map_set _ _ _ _ inside, here]
  simp

theorem weighAt_of_found (measure : α → Nat) {table : SlotTable α} {key : Nat}
    {entry : α} (found : table.get? key = some entry) :
    weighAt measure table key = measure entry := by
  simp [weighAt, found]

theorem le_weigh (measure : α → Nat) {table : SlotTable α} {key : Nat}
    {entry : α} (found : table.get? key = some entry) :
    measure entry ≤ weigh measure table := by
  have erased := weigh_erase measure table key
  rw [weighAt_of_found measure found] at erased
  omega

/-- A table that weighs something has an entry that does. -/
theorem exists_of_weigh_pos {measure : α → Nat} {table : SlotTable α}
    (heavy : 0 < table.weigh measure) :
    ∃ key entry, table.get? key = some entry ∧ 0 < measure entry := by
  have found : table.any (fun entry => decide (0 < measure entry)) = true := by
    unfold weigh at heavy
    obtain ⟨weight, member, positive⟩ := List.exists_mem_ne_zero_of_sum_ne_zero heavy.ne'
    obtain ⟨slot, stored, rfl⟩ := List.mem_map.mp member
    cases slot with
    | none => exact absurd rfl positive
    | some entry =>
        exact List.any_eq_true.mpr ⟨_, stored, decide_eq_true (Nat.pos_of_ne_zero positive)⟩
  obtain ⟨key, entry, here, positive⟩ := any_eq_true.mp found
  exact ⟨key, entry, here, of_decide_eq_true positive⟩

theorem add_le_weigh (measure : α → Nat) {table : SlotTable α}
    {first second : Nat} {firstEntry secondEntry : α}
    (different : first ≠ second)
    (foundFirst : table.get? first = some firstEntry)
    (foundSecond : table.get? second = some secondEntry) :
    measure firstEntry + measure secondEntry ≤ weigh measure table := by
  have erased := weigh_erase measure table first
  rw [weighAt_of_found measure foundFirst] at erased
  have remaining : (table.erase first).get? second = some secondEntry := by
    rw [get?_erase, if_neg different.symm, foundSecond]
  have rest := le_weigh measure remaining
  omega

/-! ## Related tables -/

/-- The tables use the same keys, with related entries under each of them. -/
structure Matches {β : Type*} (related : α → β → Prop) (table : SlotTable α)
    (other : SlotTable β) : Prop where
  nextKey : table.nextKey = other.nextKey
  entries : ∀ key, Option.Rel related (table.get? key) (other.get? key)

section Matches

variable {β : Type*} {related next : α → β → Prop} {table : SlotTable α}
  {other : SlotTable β}

theorem matches_empty : Matches related (empty : SlotTable α) (empty : SlotTable β) where
  nextKey := rfl
  entries key := by
    rw [get?_empty, get?_empty]
    exact .none

private theorem rel_mono {slot? : Option α} {image? : Option β}
    (same : Option.Rel related slot? image?)
    (weaker : ∀ entry image, slot? = some entry → related entry image →
      next entry image) : Option.Rel next slot? image? := by
  cases same with
  | none => exact .none
  | some holds => exact .some (weaker _ _ rfl holds)

theorem Matches.found (same : Matches related table other) {key : Nat} {entry : α}
    (found : table.get? key = some entry) :
    ∃ image, other.get? key = some image ∧ related entry image := by
  have entries := same.entries key
  rw [found] at entries
  generalize other.get? key = image? at entries
  cases entries with
  | some holds => exact ⟨_, rfl, holds⟩

theorem Matches.origin (same : Matches related table other) {key : Nat} {image : β}
    (stored : other.get? key = some image) :
    ∃ entry, table.get? key = some entry ∧ related entry image := by
  have entries := same.entries key
  rw [stored] at entries
  generalize table.get? key = slot? at entries
  cases entries with
  | some holds => exact ⟨_, rfl, holds⟩

theorem Matches.mono (same : Matches related table other)
    (weaker : ∀ key entry image, table.get? key = some entry → related entry image →
      next entry image) : Matches next table other where
  nextKey := same.nextKey
  entries key := rel_mono (same.entries key) (weaker key)

theorem Matches.insert (same : Matches related table other) {entry : α} {image : β}
    (holds : related entry image) :
    Matches related (table.insert entry) (other.insert image) where
  nextKey := by rw [nextKey_insert, nextKey_insert, same.nextKey]
  entries key := by
    rw [get?_insert, get?_insert, same.nextKey]
    split
    · exact .some holds
    · exact same.entries key

theorem Matches.erase (same : Matches related table other) (erased : Nat) :
    Matches related (table.erase erased) (other.erase erased) where
  nextKey := by rw [nextKey_erase, nextKey_erase, same.nextKey]
  entries key := by
    rw [get?_erase, get?_erase]
    split
    · exact .none
    · exact same.entries key

/-- Replacing an entry may change how the other entries are related. -/
theorem Matches.replace (same : Matches related table other) {replaced : Nat} {old : α}
    (found : table.get? replaced = some old) {entry : α} {image : β}
    (kept : ∀ key entry image, key ≠ replaced → table.get? key = some entry →
      related entry image → next entry image) (holds : next entry image) :
    Matches next (table.replace replaced entry) (other.replace replaced image) where
  nextKey := by rw [nextKey_replace, nextKey_replace, same.nextKey]
  entries key := by
    obtain ⟨_, stored, _⟩ := same.found found
    rw [get?_replace found, get?_replace stored]
    split
    · exact .some holds
    · next different =>
        exact rel_mono (same.entries key) fun entry image => kept key entry image different

theorem Matches.any_eq (same : Matches related table other) (test : α → Bool)
    (test' : β → Bool) (agree : ∀ entry image, related entry image →
      test entry = test' image) : table.any test = other.any test' := by
  rw [Bool.eq_iff_iff, any_eq_true, any_eq_true]
  constructor
  · rintro ⟨key, entry, found, passes⟩
    obtain ⟨image, stored, holds⟩ := same.found found
    exact ⟨key, image, stored, agree entry image holds ▸ passes⟩
  · rintro ⟨key, image, stored, passes⟩
    obtain ⟨entry, found, holds⟩ := same.origin stored
    exact ⟨key, entry, found, agree entry image holds ▸ passes⟩

end Matches

end SlotTable
