import Mathlib.Tactic

/-! Slots of given sizes, placed side by side from 0 on.

    `start sizes k` is where slot `k` begins and `find sizes x` the slot that holds `x`, the number of slots if
    none does. The two determine each other (`le_find_iff`), so a statement about the slots from the one of `a`
    to the one of `b` is a statement about where slots begin and end. -/

namespace Qcc730.Lib.Slots

/-- Where slot `k` begins. -/
def start (sizes : List ℕ) (k : ℕ) : ℕ := (sizes.take k).sum

/-- The slot that holds `x`. -/
def find : List ℕ → ℕ → ℕ
  | [], _ => 0
  | s :: ss, x => if x < s then 0 else find ss (x - s) + 1

theorem start_cons_succ (s : ℕ) (ss : List ℕ) (k : ℕ) : start (s :: ss) (k + 1) = s + start ss k := by
  rw [start, List.take_succ_cons, List.sum_cons, start]

theorem start_mono {sizes : List ℕ} {j k : ℕ} (h : j ≤ k) : start sizes j ≤ start sizes k := by
  induction sizes generalizing j k with
  | nil => rw [start, start, List.take_nil, List.take_nil]
  | cons s ss ih =>
    rcases j with _ | j
    · exact Nat.zero_le _
    · obtain ⟨k, rfl⟩ : ∃ i, k = i + 1 := ⟨k - 1, by omega⟩
      rw [start_cons_succ, start_cons_succ]
      exact Nat.add_le_add_left (ih (by omega)) s

/-- The slot of `x` is `k` or a later one exactly when `x` is not before slot `k`. -/
theorem le_find_iff {sizes : List ℕ} {k x : ℕ} (hk : k ≤ sizes.length) : k ≤ find sizes x ↔ start sizes k ≤ x := by
  induction sizes generalizing k x with
  | nil =>
    obtain rfl : k = 0 := Nat.le_zero.mp hk
    exact iff_of_true (Nat.zero_le _) (Nat.zero_le _)
  | cons s ss ih =>
    rcases k with _ | k
    · exact iff_of_true (Nat.zero_le _) (Nat.zero_le _)
    · rw [List.length_cons] at hk
      rw [find, start_cons_succ]
      by_cases hx : x < s
      · rw [if_pos hx]
        omega
      · rw [if_neg hx, Nat.succ_le_succ_iff, ih (by omega)]
        omega

end Qcc730.Lib.Slots
