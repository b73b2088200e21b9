import Mathlib.Data.Int.Log
import Mathlib.Data.Rat.Floor
import Mathlib.Tactic

/-! Rounding to a binary floating-point number.

    The nearest number with `p` significant bits, and of two nearest ones the one whose last bit is 0. The exponent
    has no bounds: nothing overflows and nothing is subnormal. -/

namespace Qcc730.Lib

/-- The nearest integer, and of two nearest ones the even one. -/
def nearestInt (x : ℚ) : ℤ :=
  if x - ⌊x⌋ < 1 / 2 ∨ (x - ⌊x⌋ = 1 / 2 ∧ ⌊x⌋ % 2 = 0) then ⌊x⌋ else ⌊x⌋ + 1

theorem floor_le_nearestInt (x : ℚ) : ⌊x⌋ ≤ nearestInt x := by
  rw [nearestInt]
  split
  · exact le_refl _
  · omega

/-- `x` in units of the last of `p` bits: `p - 1` bits below the first one. -/
def ulp (p : ℕ) (x : ℚ) : ℚ := 2 ^ (Int.log 2 |x| - (p - 1 : ℤ))

theorem ulp_pos (p : ℕ) (x : ℚ) : 0 < ulp p x := zpow_pos two_pos _

/-- `x` rounded to `p` significant bits. -/
def roundBits (p : ℕ) (x : ℚ) : ℚ :=
  if x = 0 then 0 else nearestInt (x / ulp p x) * ulp p x

/-- A positive number does not become 0: it is at least its first bit, which is a whole number of units. -/
theorem roundBits_pos {p : ℕ} (hp : 0 < p) {x : ℚ} (hx : 0 < x) : 0 < roundBits p x := by
  have hunit : 1 ≤ x / ulp p x := by
    rw [le_div_iff₀ (ulp_pos p x), one_mul, ulp, abs_of_pos hx]
    calc (2 : ℚ) ^ (Int.log 2 x - (p - 1 : ℤ)) ≤ 2 ^ Int.log 2 x := zpow_le_zpow_right₀ one_le_two (by omega)
      _ ≤ x := mod_cast Int.zpow_log_le_self one_lt_two hx
  have hone : 1 ≤ nearestInt (x / ulp p x) := (Int.le_floor.mpr (by simpa using hunit)).trans (floor_le_nearestInt _)
  rw [roundBits, if_neg hx.ne']
  exact mul_pos (by exact_mod_cast Int.lt_of_lt_of_le one_pos hone) (ulp_pos p x)

end Qcc730.Lib
