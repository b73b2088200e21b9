import Mathlib.Tactic

/-! Indices into a ring of `n` slots.

    A ring index is a counter that only grows, taken modulo `n`. Two counters at most `n` apart have the
    same index exactly when they are equal or a whole lap apart, and otherwise the distance of the counters
    is read off the indices with one case distinction. -/

namespace Qcc730.Lib

/-- The index `d` slots further on. -/
theorem mod_add_le {n i d : ℕ} (hn : 0 < n) (hd : d ≤ n) :
    (i + d) % n = if i % n + d < n then i % n + d else i % n + d - n := by
  have hi := Nat.mod_lt i hn
  rw [← Nat.mod_add_mod]
  split
  · rename_i h
    exact Nat.mod_eq_of_lt h
  · rename_i h
    rw [Nat.mod_eq_sub_mod (by omega), Nat.mod_eq_of_lt (by omega)]

/-- Equal indices: equal counters, or a lap between them. -/
theorem mod_eq_mod_iff_lap {n x y : ℕ} (hn : 0 < n) (h : x ≤ y) (h' : y ≤ x + n) :
    x % n = y % n ↔ y = x ∨ y = x + n := by
  have hx := Nat.mod_lt x hn
  have hy := mod_add_le (i := x) hn (show y - x ≤ n by omega)
  rw [Nat.add_sub_cancel' h] at hy
  rw [hy]
  split <;> omega

/-- Counters less than a lap apart. -/
theorem mod_ne_mod_of_lt {n x y : ℕ} (h : x < y) (h' : y < x + n) : x % n ≠ y % n := by
  intro he
  rcases (mod_eq_mod_iff_lap (by omega) h.le h'.le).mp he with h | h <;> omega

/-- The distance of two counters less than a lap apart, from their indices. -/
theorem mod_distance {n x y : ℕ} (h : x < y) (h' : y < x + n) :
    (x % n < y % n → y % n - x % n = y - x) ∧ (y % n < x % n → n + y % n - x % n = y - x) := by
  have hn : 0 < n := by omega
  have hx := Nat.mod_lt x hn
  have hy := mod_add_le (i := x) hn (show y - x ≤ n by omega)
  rw [Nat.add_sub_cancel' h.le] at hy
  rw [hy]
  split <;> constructor <;> intro <;> omega

/-- Every index is met in a lap. -/
theorem exists_counter {n b x i : ℕ} (hi : i < n) : ∃ j, x ≤ j ∧ j < x + n ∧ i = (b + j) % n := by
  have hn : 0 < n := by omega
  have hlt := Nat.mod_lt (b + x) hn
  by_cases h : (b + x) % n ≤ i
  · refine ⟨x + (i - (b + x) % n), by omega, by omega, ?_⟩
    rw [← Nat.add_assoc, mod_add_le (i := b + x) hn (by omega), if_pos (by omega)]
    omega
  · refine ⟨x + (n + i - (b + x) % n), by omega, by omega, ?_⟩
    rw [← Nat.add_assoc, mod_add_le (i := b + x) hn (by omega), if_neg (by omega)]
    omega

/-- A quotient is right after a value that wraps at `n` exactly when the value did not wrap. -/
theorem mod_div_eq_iff {n x d : ℕ} (hd : 0 < d) (hn : d ≤ n) : x % n / d = x / d ↔ x < n := by
  refine ⟨fun h => ?_, fun h => by rw [Nat.mod_eq_of_lt h]⟩
  by_contra hx
  have hlap : x % n + d ≤ x := by
    have hmod := Nat.mod_eq_sub_mod (Nat.le_of_not_lt hx)
    have hle := Nat.mod_le (x - n) n
    omega
  have hdiv := Nat.div_le_div_right (c := d) hlap
  rw [Nat.add_div_right _ hd] at hdiv
  omega

/-- The next index. -/
theorem succ_mod {n i : ℕ} : (i % n + 1) % n = (i + 1) % n := Nat.mod_add_mod i n 1

end Qcc730.Lib
