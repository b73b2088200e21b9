import Mathlib.Tactic

/-! Points a period apart.

    From `e` on there is a point every `p`. The next one after a given time is the last whole number of periods up to
    it and one more. -/

namespace Qcc730.Lib

variable {e p now x : ℕ}

/-- `x` is `e + k * p` for the least `k ≥ 1` for which that is later than `now`. -/
def IsNextPoint (e p now x : ℕ) : Prop :=
  ∃ k, 1 ≤ k ∧ x = e + k * p ∧ now < x ∧ ∀ j, 1 ≤ j → now < e + j * p → k ≤ j

/-- The next point after `now`. -/
def nextPoint (e p now : ℕ) : ℕ := e + ((now - e) / p + 1) * p

theorem lt_nextPoint (hp : 0 < p) : now < nextPoint e p now := by
  have hdiv := Nat.div_add_mod (now - e) p
  have hmod := Nat.mod_lt (now - e) hp
  rw [nextPoint, Nat.add_mul, Nat.one_mul, Nat.mul_comm]
  omega

/-- A period of 0 leads to no later point. -/
theorem IsNextPoint.pos (h : IsNextPoint e p now x) (he : e ≤ now) : 0 < p := by
  obtain ⟨k, -, rfl, hlt, -⟩ := h
  rcases Nat.eq_zero_or_pos p with rfl | hp
  · omega
  · exact hp

theorem isNextPoint_iff (hp : 0 < p) : IsNextPoint e p now x ↔ x = nextPoint e p now := by
  have hleast : ∀ j, 1 ≤ j → now < e + j * p → (now - e) / p + 1 ≤ j := by
    intro j hj hlt
    rw [Nat.succ_le_iff, Nat.div_lt_iff_lt_mul hp]
    have := Nat.le_mul_of_pos_left p hj
    omega
  constructor
  · rintro ⟨k, hk, rfl, hlt, hmin⟩
    have hle := hmin _ (Nat.le_add_left 1 _) (lt_nextPoint hp)
    rw [nextPoint, Nat.le_antisymm hle (hleast k hk hlt)]
  · rintro rfl
    exact ⟨_, Nat.le_add_left 1 _, rfl, lt_nextPoint hp, hleast⟩

/-- The time since `e`, rounded up to a whole number of periods that is more. -/
theorem nextPoint_eq_round (hp : 0 < p) :
    nextPoint e p now = e + (now - e + (p - (now - e) % p)) := by
  have := Nat.div_add_mod (now - e) p
  have hmod := Nat.mod_lt (now - e) hp
  rw [nextPoint, Nat.add_mul, Nat.one_mul, Nat.mul_comm]
  omega

/-- One period is enough when `now` is before its end. -/
theorem nextPoint_of_lt (he : e ≤ now) (h : now < e + p) : nextPoint e p now = e + p := by
  rw [nextPoint, Nat.div_eq_of_lt (by omega), Nat.zero_add, Nat.one_mul]

theorem add_le_nextPoint : e + p ≤ nextPoint e p now := by
  rw [nextPoint, Nat.add_mul, Nat.one_mul]
  omega

end Qcc730.Lib
