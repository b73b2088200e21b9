import Mathlib.Tactic

/-! Texts that stand in a buffer.

    A buffer is a function from indices, so that its end is a matter of the program and not of the buffer.
    `Reads m i t` says that the elements of `t` stand in it from `i` on. A store outside of them, or a move of the
    whole text, keeps it. -/

namespace Qcc730.Lib

variable {α : Type*}

/-- The elements of the text stand in the buffer from `i` on. -/
def Reads (m : ℕ → α) : ℕ → List α → Prop
  | _, [] => True
  | i, c :: t => m i = c ∧ Reads m (i + 1) t

namespace Reads

variable {m m' : ℕ → α} {i j : ℕ} {c : α} {t u : List α}

@[simp] theorem nil : Reads m i [] := trivial

@[simp] theorem cons_iff : Reads m i (c :: t) ↔ m i = c ∧ Reads m (i + 1) t := Iff.rfl

theorem head (h : Reads m i (c :: t)) : m i = c := h.1

theorem tail (h : Reads m i (c :: t)) : Reads m (i + 1) t := h.2

theorem append_iff : Reads m i (t ++ u) ↔ Reads m i t ∧ Reads m (i + t.length) u := by
  induction t generalizing i with
  | nil => simp
  | cons c t ih =>
    rw [List.cons_append, cons_iff, cons_iff, ih, and_assoc, List.length_cons]
    have hadd : i + 1 + t.length = i + (t.length + 1) := by omega
    rw [hadd]

/-- The same elements in another buffer, or at another place. -/
theorem move (h : Reads m i t) (he : ∀ k < t.length, m' (j + k) = m (i + k)) : Reads m' j t := by
  induction t generalizing i j with
  | nil => trivial
  | cons c t ih =>
    refine ⟨(he 0 (by simp)).trans h.1, ih h.2 fun k hk => ?_⟩
    have hk' := he (k + 1) (by rw [List.length_cons]; omega)
    rwa [Nat.add_right_comm j 1 k, Nat.add_right_comm i 1 k]

theorem congr (h : Reads m i t) (he : ∀ k, i ≤ k → k < i + t.length → m' k = m k) : Reads m' i t :=
  h.move fun k hk => he (i + k) (by omega) (by omega)

theorem update (h : Reads m i t) (hj : j < i ∨ i + t.length ≤ j) : Reads (Function.update m j c) i t :=
  h.congr fun k hk hk' => Function.update_of_ne (by omega) _ _

/-- An element of the text, by its place. -/
theorem getElem (h : Reads m i t) {k : ℕ} (hk : k < t.length) : m (i + k) = t[k] := by
  induction t generalizing i k with
  | nil => exact absurd hk (Nat.not_lt_zero k)
  | cons c t ih =>
    cases k with
    | zero => exact h.1
    | succ k =>
      have := ih h.2 (Nat.lt_of_succ_lt_succ hk)
      rw [List.getElem_cons_succ, ← this]
      congr 1
      omega

/-- The last element of the text. -/
theorem getLast (h : Reads m i (c :: t)) : m (i + t.length) = (c :: t).getLast (List.cons_ne_nil c t) := by
  rw [List.getLast_eq_getElem]
  exact h.getElem (by simp)

end Reads

end Qcc730.Lib
