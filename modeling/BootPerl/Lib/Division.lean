import Mathlib.Data.Nat.ModEq
import Mathlib.Tactic.Ring

/-!
# Division of a number of two limbs

The limbs are digits to a base `B`. The high limb is divided first, and what is left of it goes into the division of the low one,
whose quotient is a limb again.
-/

namespace BootPerl

section
variable {B b high low : Nat}

/-- The two quotients are the limbs of the quotient. -/
theorem div_limbs (hb : 0 < b) : (high * B + low) / b = high / b * B + (high % b * B + low) / b := by
  have hsplit : high * B + low = high % b * B + low + b * (high / b * B) := by
    calc high * B + low = (high % b + b * (high / b)) * B + low := by rw [Nat.mod_add_div]
      _ = high % b * B + low + b * (high / b * B) := by ring
  rw [hsplit, Nat.add_mul_div_left _ _ hb, Nat.add_comm]

/-- The second remainder is the remainder. -/
theorem mod_limbs : (high * B + low) % b = (high % b * B + low) % b :=
  ((Nat.mod_modEq high b).symm.mul_right B).add_right low

/-- The second quotient is a limb. -/
theorem div_limb_lt (hhigh : high < b) (hlow : low < B) : (high * B + low) / b < B := by
  refine Nat.div_lt_of_lt_mul ?_
  calc high * B + low < high * B + B := Nat.add_lt_add_left hlow _
    _ = (high + 1) * B := by ring
    _ ≤ b * B := Nat.mul_le_mul_right B hhigh

end

end BootPerl
