import Mathlib.Data.Nat.BitIndices
import Mathlib.Data.Nat.Bitwise
import Mathlib.Tactic

/-! The number of ones in the binary notation of a number.

    A count of ones goes up by one with every low bit added and down by one when the lowest one is cleared,
    which is how a loop counts them. -/

namespace Qcc730.Lib

/-- The number of ones of `v`. -/
def ones (v : ℕ) : ℕ := v.bitIndices.length

@[simp] theorem ones_zero : ones 0 = 0 := by simp [ones]

theorem ones_two_mul (n : ℕ) : ones (2 * n) = ones n := by
  rw [ones, Nat.bitIndices_two_mul, List.length_map, ones]

theorem ones_two_mul_add_one (n : ℕ) : ones (2 * n + 1) = ones n + 1 := by
  rw [ones, Nat.bitIndices_two_mul_add_one, List.length_cons, List.length_map, ones]

theorem ones_pow_sub_one (k : ℕ) : ones (2 ^ k - 1) = k := by
  induction k with
  | zero => exact ones_zero
  | succ k ih =>
    have hpos := Nat.two_pow_pos k
    have hdouble : 2 ^ (k + 1) - 1 = 2 * (2 ^ k - 1) + 1 := by
      rw [Nat.pow_succ]
      omega
    rw [hdouble, ones_two_mul_add_one, ih]

/-- Clearing the lowest bit takes away one of the ones. -/
theorem ones_clear_lowest {v : ℕ} (h : v ≠ 0) : ones (v &&& (v - 1)) + 1 = ones v := by
  induction v using Nat.strong_induction_on with
  | _ v ih =>
    obtain ⟨n, hn⟩ := Nat.even_or_odd' v
    rcases hn with rfl | rfl
    · have hclear : 2 * n &&& (2 * n - 1) = 2 * (n &&& (n - 1)) := by
        have hpred : 2 * n - 1 = 2 * (n - 1) + 1 := by omega
        rw [hpred]
        have := Nat.land_bit false n true (n - 1)
        simpa [Nat.bit_val] using this
      rw [hclear, ones_two_mul, ones_two_mul]
      exact ih n (by omega) (by omega)
    · have hclear : (2 * n + 1) &&& (2 * n + 1 - 1) = 2 * n := by
        have := Nat.land_bit true n false n
        simpa [Nat.bit_val] using this
      rw [hclear, ones_two_mul, ones_two_mul_add_one]

theorem ones_le {v k : ℕ} (h : v < 2 ^ k) : ones v ≤ k := by
  induction k generalizing v with
  | zero =>
    obtain rfl : v = 0 := by omega
    exact ones_zero.le
  | succ k ih =>
    rw [Nat.pow_succ] at h
    obtain ⟨n, rfl | rfl⟩ := Nat.even_or_odd' v
    · rw [ones_two_mul]
      exact (ih (by omega)).trans (Nat.le_succ k)
    · rw [ones_two_mul_add_one]
      exact Nat.succ_le_succ (ih (by omega))

end Qcc730.Lib
