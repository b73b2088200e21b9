import Mathlib.Tactic
import Mathlib.Logic.Relation

/-! Transition systems.

    A system is a relation between states; what it can reach is the reflexive transitive closure of it. A
    property that holds at the start and that every step keeps holds of everything reached. -/

namespace Qcc730.Lib

variable {σ : Type*} {step : σ → σ → Prop}

/-- The states reached from `s`. -/
abbrev Reach (step : σ → σ → Prop) : σ → σ → Prop := Relation.ReflTransGen step

/-- An invariant holds of every state reached. -/
theorem Reach.inv {P : σ → Prop} {s t : σ} (h : Reach step s t) (hs : P s)
    (hstep : ∀ x y, step x y → P x → P y) : P t := by
  induction h with
  | refl => exact hs
  | tail _ hxy ih => exact hstep _ _ hxy ih

/-- One step. -/
theorem Reach.one {s t : σ} (h : step s t) : Reach step s t := Relation.ReflTransGen.single h

/-- A system whose steps are the actions `α`: a sequence of actions is a run. -/
theorem Reach.foldl {α : Type*} (act : σ → α → σ) (s : σ) (as : List α) :
    Reach (fun s s' => ∃ a, s' = act s a) s (as.foldl act s) := by
  induction as generalizing s with
  | nil => exact .refl
  | cons a as ih => exact .head ⟨a, rfl⟩ (ih _)

/-! ### Runs of actions -/

section Along

variable {α : Type*} {act : σ → α → σ} {P Q legal : σ → α → Prop} {I : σ → Prop}

/-- `P` holds of every action of a run and the state it is taken in. -/
def Along (act : σ → α → σ) (P : σ → α → Prop) : σ → List α → Prop
  | _, [] => True
  | s, a :: as => P s a ∧ Along act P (act s a) as

instance [∀ s a, Decidable (P s a)] : ∀ s as, Decidable (Along act P s as)
  | _, [] => inferInstanceAs (Decidable True)
  | s, a :: as => @instDecidableAnd _ _ _ (instDecidableAlong (act s a) as)

theorem Along.append {s : σ} {as bs : List α} :
    Along act P s (as ++ bs) ↔ Along act P s as ∧ Along act P (as.foldl act s) bs := by
  induction as generalizing s with
  | nil => simp [Along]
  | cons a as ih => simp only [List.cons_append, Along, ih, List.foldl_cons, and_assoc]

/-- A run each of whose actions meets a condition, as a run of the system of such actions. -/
theorem Along.reach {s : σ} {as : List α} (h : Along act P s as) :
    Reach (fun s s' => ∃ a, P s a ∧ s' = act s a) s (as.foldl act s) := by
  induction as generalizing s with
  | nil => exact .refl
  | cons a as ih => exact .head ⟨a, h.1, rfl⟩ (ih h.2)

theorem along_true (s : σ) (as : List α) : Along act (fun _ _ => True) s as := by
  induction as generalizing s with
  | nil => exact trivial
  | cons a as ih => exact ⟨trivial, ih _⟩

/-- Two properties of an action that come to the same in every state of an invariant, where the second one keeps
    the invariant, come to the same over whole runs. -/
theorem Along.iff (hkeep : ∀ s a, I s → legal s a → Q s a → I (act s a))
    (hPQ : ∀ s a, I s → legal s a → (P s a ↔ Q s a)) {s : σ} {as : List α} (hs : I s) (hl : Along act legal s as) :
    Along act P s as ↔ Along act Q s as := by
  induction as generalizing s with
  | nil => exact Iff.rfl
  | cons a as ih =>
    obtain ⟨ha, hl⟩ := hl
    rw [Along, Along, hPQ s a hs ha]
    exact and_congr_right fun hq => ih (hkeep s a hs ha hq) hl

/-- Where an invariant holds, `Q` keeps it and gives `P`: then `Q` along a run gives `P` along it. -/
theorem Along.of_inv (hkeep : ∀ s a, I s → Q s a → I (act s a)) (hP : ∀ s a, I s → Q s a → P s a) {s : σ} {as : List α}
    (hs : I s) (hQ : Along act Q s as) : Along act P s as := by
  induction as generalizing s with
  | nil => exact trivial
  | cons a as ih => exact ⟨hP s a hs hQ.1, ih (hkeep s a hs hQ.1) hQ.2⟩

end Along

/-! ### Runs to a stop -/

section Until

variable {next : σ → σ} {stop : σ → Prop}

/-- `next` taken again and again, from `s` to the first state that stops. -/
inductive Until (next : σ → σ) (stop : σ → Prop) : σ → σ → Prop where
  | done {s : σ} (h : stop s) : Until next stop s s
  | more {s t : σ} (h : ¬ stop s) (hs : Until next stop (next s) t) : Until next stop s t

theorem Until.inv {P : σ → Prop} {s t : σ} (h : Until next stop s t) (hs : P s) (hnext : ∀ x, P x → P (next x)) :
    P t := by
  induction h with
  | done => exact hs
  | more _ _ ih => exact ih (hnext _ hs)

theorem Until.unique {s t t' : σ} (h : Until next stop s t) (h' : Until next stop s t') : t = t' := by
  induction h with
  | done hi =>
    cases h' with
    | done => rfl
    | more hne => exact absurd hi hne
  | more hne _ ih =>
    cases h' with
    | done hi => exact absurd hi hne
    | more _ hs => exact ih hs

end Until

end Qcc730.Lib
