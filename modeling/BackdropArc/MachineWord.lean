import Mathlib.Tactic.Ring
import Mathlib.Data.Nat.Bitwise

/-!
# Machine words

Unsigned numbers of a fixed width, written as natural numbers below the
modulus, with the operations that wrap around and those that check.
-/

/-- The width of the machine's unsigned numbers. -/
structure MachineWord where
  bits : Nat
  bits_pos : 0 < bits

namespace MachineWord

/-- The number of values of `usize`. -/
def modulus (word : MachineWord) : Nat :=
  2 ^ word.bits

/-- `isize::MAX`. -/
def isizeMax (word : MachineWord) : Nat :=
  2 ^ (word.bits - 1) - 1

def wide : MachineWord :=
  ⟨64, by decide⟩

theorem isizeMax_succ (word : MachineWord) :
    word.isizeMax + 1 = 2 ^ (word.bits - 1) := by
  have positive := Nat.two_pow_pos (word.bits - 1)
  unfold isizeMax
  omega

theorem modulus_eq (word : MachineWord) :
    word.modulus = 2 * (word.isizeMax + 1) := by
  have width : word.bits = word.bits - 1 + 1 := by
    have := word.bits_pos
    omega
  rw [isizeMax_succ]
  unfold modulus
  conv_lhs => rw [width, pow_succ]
  ring

def wrappingAdd (word : MachineWord) (x y : Nat) : Nat :=
  (x + y) % word.modulus

def wrappingSub (word : MachineWord) (x y : Nat) : Nat :=
  (x + word.modulus - y) % word.modulus

def checkedAdd (word : MachineWord) (x y : Nat) : Option Nat :=
  if x + y < word.modulus then some (x + y) else none

def complement (word : MachineWord) (x : Nat) : Nat :=
  word.modulus - 1 - x

theorem wrappingAdd_eq (word : MachineWord) {x y : Nat} (fits : x + y < word.modulus) :
    word.wrappingAdd x y = x + y :=
  Nat.mod_eq_of_lt fits

theorem wrappingSub_eq (word : MachineWord) {x y : Nat} (fits : x < word.modulus)
    (below : y ≤ x) : word.wrappingSub x y = x - y := by
  unfold wrappingSub
  rw [show x + word.modulus - y = x - y + word.modulus by omega, Nat.add_mod_right,
    Nat.mod_eq_of_lt (by omega)]

/-- Masking off the low bits rounds down to a multiple of a power of two. -/
theorem and_complement_mask (word : MachineWord) {x k : Nat} (fits : x < word.modulus)
    (small : k ≤ word.bits) :
    x &&& word.complement (2 ^ k - 1) = x / 2 ^ k * 2 ^ k := by
  have positive := Nat.two_pow_pos k
  have split : (2 : Nat) ^ word.bits = 2 ^ (word.bits - k) * 2 ^ k := by
    rw [← pow_add, Nat.sub_add_cancel small]
  have mask : word.complement (2 ^ k - 1) = (2 ^ (word.bits - k) - 1) <<< k := by
    unfold complement modulus
    rw [Nat.shiftLeft_eq, Nat.sub_mul, ← split, Nat.one_mul]
    omega
  rw [mask, ← Nat.shiftRight_eq_div_pow, ← Nat.shiftLeft_eq]
  apply Nat.eq_of_testBit_eq
  intro i
  simp only [Nat.testBit_and, Nat.testBit_shiftLeft, Nat.testBit_shiftRight,
    Nat.testBit_two_pow_sub_one]
  by_cases low : k ≤ i
  · by_cases high : i - k < word.bits - k
    · simp [low, high]
    · have zero : x.testBit i = false := by
        apply Nat.testBit_lt_two_pow
        have larger : 2 ^ word.bits ≤ 2 ^ i :=
          Nat.pow_le_pow_right (by decide) (by omega)
        unfold modulus at fits
        omega
      simp [low, high, zero]
  · simp [low]

/-! ## The lowest bit as a tag -/

theorem and_one_of_even {x : Nat} (even : 2 ∣ x) : x &&& 1 = 0 := by
  rw [Nat.and_one_is_mod]
  exact Nat.mod_eq_zero_of_dvd even

theorem or_one_of_even {x : Nat} (even : 2 ∣ x) : x ||| 1 = x + 1 := by
  obtain ⟨half, rfl⟩ := even
  apply Nat.eq_of_testBit_eq
  intro i
  cases i with
  | zero => simp
  | succ i =>
      have odd : (2 * half + 1) / 2 = 2 * half / 2 := by omega
      simp [Nat.testBit_succ, Nat.or_div_two, odd]

/-- Setting the tag of an even word and masking it off again changes nothing. -/
theorem untag_of_even (word : MachineWord) {x : Nat} (even : 2 ∣ x)
    (fits : x + 1 < word.modulus) : (x ||| 1) &&& word.complement 1 = x := by
  have masked := word.and_complement_mask (k := 1) fits word.bits_pos
  simp only [pow_one, Nat.reduceSub] at masked
  rw [or_one_of_even even, masked]
  omega

end MachineWord
