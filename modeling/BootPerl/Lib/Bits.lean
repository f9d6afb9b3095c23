import Mathlib.Algebra.Order.Ring.Nat
import Mathlib.Data.Nat.Bitwise

/-!
# Setting and clearing a bit

For a number whose lower bits and the bit itself are clear.
-/

namespace BootPerl

/-- The bit of a multiple of the next power of two, and all lower bits, are clear. -/
theorem testBit_of_dvd {x b i : Nat} (h : 2 ^ b ∣ x) (hi : i < b) : x.testBit i = false := by
  obtain ⟨q, rfl⟩ := h
  rw [Nat.testBit_two_pow_mul, decide_eq_false (Nat.not_le_of_lt hi), Bool.false_and]

/-- Setting the bit adds its value. -/
theorem or_two_pow {x b : Nat} (h : 2 ^ (b + 1) ∣ x) : x ||| 2 ^ b = x + 2 ^ b := by
  obtain ⟨q, rfl⟩ := h
  exact (Nat.two_pow_add_eq_or_of_lt (Nat.pow_lt_pow_right (by decide) (Nat.lt_succ_self b)) q).symm

/-- Clearing it again, with a complement of `w` bits, gives the number back. -/
theorem and_not_two_pow {x b w : Nat} (h : 2 ^ (b + 1) ∣ x) (hx : x < 2 ^ w) (hb : b < w) :
    (x ||| 2 ^ b) &&& (2 ^ w - 1 ^^^ 2 ^ b) = x := by
  refine Nat.eq_of_testBit_eq fun i => ?_
  rw [Nat.testBit_and, Nat.testBit_or, Nat.testBit_xor, Nat.testBit_two_pow, Nat.testBit_two_pow_sub_one]
  by_cases hi : b = i
  · subst hi
    rw [testBit_of_dvd h (Nat.lt_succ_self b)]
    simp [hb]
  · by_cases hw : i < w
    · simp [hi, hw]
    · -- the number has no bit as high
      have hle : 2 ^ w ≤ 2 ^ i := Nat.pow_le_pow_right (by decide) (Nat.le_of_not_lt hw)
      simp [hi, Nat.testBit_lt_two_pow (Nat.lt_of_lt_of_le hx hle)]

end BootPerl
