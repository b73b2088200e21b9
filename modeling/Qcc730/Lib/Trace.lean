import Mathlib.Tactic

/-! Write logs and crash points.

    A non-volatile store changes only by a sequence of writes. Replaying a log from the initial
    store gives the final one; replaying a prefix of the log gives what a power loss leaves
    behind. The rules here reduce a statement about a log, or a prefix of one, to one about every
    single write. -/

namespace Qcc730.Lib

variable {σ ω : Type*} (app : σ → ω → σ)

/-- The store after the writes `ws`. -/
def replay (s : σ) (ws : List ω) : σ := ws.foldl app s

@[simp] theorem replay_nil (s : σ) : replay app s [] = s := rfl

@[simp] theorem replay_cons (s : σ) (x : ω) (ws : List ω) :
    replay app s (x :: ws) = replay app (app s x) ws := rfl

theorem replay_append (s : σ) (ws vs : List ω) :
    replay app s (ws ++ vs) = replay app (replay app s ws) vs := List.foldl_append

/-- A property that every write of the log keeps holds after the log. -/
theorem replay_inv {P : σ → Prop} {ws : List ω} {s : σ} (h : ∀ x ∈ ws, ∀ t, P t → P (app t x))
    (hs : P s) : P (replay app s ws) := by
  induction ws generalizing s with
  | nil => exact hs
  | cons x ws ih =>
    rw [replay_cons]
    exact ih (fun y hy => h y (List.mem_cons_of_mem _ hy)) (h x List.mem_cons_self s hs)

/-- An observation that no write of the log changes is the same before and after. -/
theorem replay_frame {β : Type*} (f : σ → β) {ws : List ω} {s : σ}
    (h : ∀ x ∈ ws, ∀ t, f (app t x) = f t) : f (replay app s ws) = f s :=
  replay_inv app (P := fun t => f t = f s) (fun x hx t ht => (h x hx t).trans ht) rfl

end Qcc730.Lib
