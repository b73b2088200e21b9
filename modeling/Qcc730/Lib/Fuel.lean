import Mathlib.Tactic

/-! Loops and recursions with fuel.

    A loop that may not end is a function of the number of rounds it is given, with no result when they are used up.
    What it returns is the result for some number of rounds; when more rounds never change a result there is at most
    one. -/

namespace Qcc730.Lib

variable {α β : Type*}

/-- `y` is `x`, unless `x` is no result. -/
def Extends (x y : Option α) : Prop := ∀ a, x = some a → y = some a

namespace Extends

theorem refl (x : Option α) : Extends x x := fun _ h => h

theorem none (y : Option α) : Extends none y := fun _ h => nomatch h

theorem bind {x y : Option α} {f g : α → Option β} (h : Extends x y) (hfg : ∀ a, Extends (f a) (g a)) :
    Extends (x.bind f) (y.bind g) := by
  intro b hb
  obtain ⟨a, ha, hf⟩ := Option.bind_eq_some_iff.mp hb
  exact Option.bind_eq_some_iff.mpr ⟨a, h a ha, hfg a b hf⟩

theorem map {x y : Option α} (f : α → β) (h : Extends x y) : Extends (x.map f) (y.map f) := by
  intro b hb
  obtain ⟨a, ha, hf⟩ := Option.map_eq_some_iff.mp hb
  exact Option.map_eq_some_iff.mpr ⟨a, h a ha, hf⟩

end Extends

/-- One more round does not change a result. -/
def Steady (f : ℕ → Option α) : Prop := ∀ n, Extends (f n) (f (n + 1))

/-- The result for some number of rounds. -/
def Returns (f : ℕ → Option α) (a : α) : Prop := ∃ n, f n = some a

namespace Returns

variable {f : ℕ → Option α} {a b : α}

theorem of_eq {n : ℕ} (h : f n = some a) : Returns f a := ⟨n, h⟩

theorem const (a : α) : Returns (fun _ => some a) a := ⟨0, rfl⟩

/-- The result for every number of rounds from some on. -/
theorem eventually (hf : Steady f) (h : Returns f a) : ∃ n, ∀ m, n ≤ m → f m = some a := by
  obtain ⟨n, hn⟩ := h
  refine ⟨n, fun m hm => ?_⟩
  induction m, hm using Nat.le_induction with
  | base => exact hn
  | succ m _ ih => exact hf m a ih

theorem unique (hf : Steady f) (h : Returns f a) (h' : Returns f b) : a = b := by
  obtain ⟨m, hm⟩ := h.eventually hf
  obtain ⟨n, hn⟩ := h'.eventually hf
  have ha := hm (max m n) (le_max_left m n)
  rw [hn (max m n) (le_max_right m n)] at ha
  exact (Option.some.inj ha).symm

/-- A function whose first round goes to the body. -/
theorem succ (h : Returns (fun n => f (n + 1)) a) : Returns f a := by
  obtain ⟨n, hn⟩ := h
  exact ⟨n + 1, hn⟩

/-- One computation after the other, with the same number of rounds. -/
theorem bind {g : α → ℕ → Option β} {c : β} (hf : Steady f) (hg : Steady (g a)) (h : Returns f a)
    (h' : Returns (g a) c) : Returns (fun n => (f n).bind fun x => g x n) c := by
  obtain ⟨m, hm⟩ := h.eventually hf
  obtain ⟨n, hn⟩ := h'.eventually hg
  refine ⟨max m n, ?_⟩
  show (f (max m n)).bind (fun x => g x (max m n)) = some c
  rw [hm _ (le_max_left m n), Option.bind_some, hn _ (le_max_right m n)]

theorem map (g : α → β) (h : Returns f a) : Returns (fun n => (f n).map g) (g a) := by
  obtain ⟨n, hn⟩ := h
  refine ⟨n, ?_⟩
  show (f n).map g = some (g a)
  rw [hn, Option.map_some]

end Returns

end Qcc730.Lib
