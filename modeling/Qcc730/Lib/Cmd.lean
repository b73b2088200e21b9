import Mathlib.Tactic

/-! Commands: computations that read and change a state and may fail with an error code.

    A failing command keeps the changes it made before it failed, as a C function that returns a
    status code does. `Triple P c Q E` is total correctness with two postconditions: from a state
    with `P`, the command `c` either returns a value with `Q` or fails with `E`. -/

namespace Qcc730.Lib

/-- A command over the state `σ` with errors `ε`. -/
def Cmd (σ ε α : Type) : Type := σ → Except ε α × σ

namespace Cmd

variable {σ τ ε ε' α β : Type}

/-- The command that returns `a`. -/
def ret (a : α) : Cmd σ ε α := fun s => (.ok a, s)

/-- Run `c`, then `f` on its result; an error of `c` skips `f`. -/
def andThen (c : Cmd σ ε α) (f : α → Cmd σ ε β) : Cmd σ ε β := fun s =>
  match c s with
  | (.ok a, s') => f a s'
  | (.error e, s') => (.error e, s')

instance : Monad (Cmd σ ε) where
  pure := ret
  bind := andThen

/-- Fail with the error `e`. -/
def fail (e : ε) : Cmd σ ε α := fun s => (.error e, s)

/-- A value computed from the state. -/
def gets (f : σ → α) : Cmd σ ε α := fun s => (.ok (f s), s)

/-- Change the state. -/
def modify (f : σ → σ) : Cmd σ ε Unit := fun s => (.ok (), f s)

/-- Run `c` only in a state with `p`. -/
def when (p : σ → Prop) [DecidablePred p] (c : Cmd σ ε Unit) : Cmd σ ε Unit := fun s =>
  if p s then c s else (.ok (), s)

/-- Fail with `e` unless the state has `p`. -/
def ensure (p : σ → Prop) [DecidablePred p] (e : ε) : Cmd σ ε Unit := fun s =>
  if p s then (.ok (), s) else (.error e, s)

/-- Report any error of `c` as `e`. -/
def orFail (c : Cmd σ ε' α) (e : ε) : Cmd σ ε α := fun s =>
  match c s with
  | (.ok a, s') => (.ok a, s')
  | (.error _, s') => (.error e, s')

/-- The result of `c`, an error included, as a value. -/
def attempt (c : Cmd σ ε' α) : Cmd σ ε (Except ε' α) := fun s => (.ok (c s).1, (c s).2)

/-- Run `c` on a component of a larger state. -/
def zoom (get : τ → σ) (set : τ → σ → τ) (c : Cmd σ ε α) : Cmd τ ε α := fun t =>
  ((c (get t)).1, set t (c (get t)).2)

@[simp] theorem pure_apply (a : α) (s : σ) : (pure a : Cmd σ ε α) s = (.ok a, s) := rfl

@[simp] theorem fail_apply (e : ε) (s : σ) : (fail e : Cmd σ ε α) s = (.error e, s) := rfl

@[simp] theorem gets_apply (f : σ → α) (s : σ) : (gets f : Cmd σ ε α) s = (.ok (f s), s) := rfl

@[simp] theorem modify_apply (f : σ → σ) (s : σ) : (modify f : Cmd σ ε Unit) s = (.ok (), f s) := rfl

theorem when_pos {p : σ → Prop} [DecidablePred p] {c : Cmd σ ε Unit} {s : σ} (h : p s) :
    when p c s = c s := if_pos h

theorem when_neg {p : σ → Prop} [DecidablePred p] {c : Cmd σ ε Unit} {s : σ} (h : ¬p s) :
    when p c s = (.ok (), s) := if_neg h

theorem ensure_apply (p : σ → Prop) [DecidablePred p] (e : ε) (s : σ) :
    ensure p e s = if p s then (.ok (), s) else (.error e, s) := rfl

theorem bind_apply (c : Cmd σ ε α) (f : α → Cmd σ ε β) (s : σ) : (c >>= f) s =
    match c s with
    | (.ok a, s') => f a s'
    | (.error e, s') => (.error e, s') := rfl

theorem bind_ok {c : Cmd σ ε α} {f : α → Cmd σ ε β} {s s' : σ} {a : α} (h : c s = (.ok a, s')) :
    (c >>= f) s = f a s' := by rw [bind_apply, h]

theorem bind_error {c : Cmd σ ε α} {f : α → Cmd σ ε β} {s s' : σ} {e : ε}
    (h : c s = (.error e, s')) : (c >>= f) s = (.error e, s') := by rw [bind_apply, h]

theorem ensure_bind (p : σ → Prop) [DecidablePred p] (e : ε) (f : Unit → Cmd σ ε β) (s : σ) :
    (ensure p e >>= f) s = if p s then f () s else (.error e, s) := by
  rw [bind_apply, ensure_apply]
  by_cases h : p s
  · simp only [if_pos h]
  · simp only [if_neg h]

/-- A sequence that succeeds is two commands that succeed. -/
theorem bind_eq_ok {c : Cmd σ ε α} {f : α → Cmd σ ε β} {s s'' : σ} {b : β}
    (h : (c >>= f) s = (.ok b, s'')) : ∃ a s', c s = (.ok a, s') ∧ f a s' = (.ok b, s'') := by
  rw [bind_apply] at h
  rcases hc : c s with ⟨_ | a, s'⟩
  · rw [hc] at h; simp at h
  · rw [hc] at h; exact ⟨a, s', rfl, h⟩

/-! ### Triples -/

/-- A command has returned with `Q` or failed with `E`. -/
def Ends (Q : α → σ → Prop) (E : ε → σ → Prop) : Except ε α × σ → Prop
  | (.ok a, s) => Q a s
  | (.error e, s) => E e s

@[simp] theorem ends_ok {Q : α → σ → Prop} {E : ε → σ → Prop} {a : α} {s : σ} : Ends Q E (.ok a, s) ↔ Q a s :=
  Iff.rfl

@[simp] theorem ends_error {Q : α → σ → Prop} {E : ε → σ → Prop} {e : ε} {s : σ} :
    Ends Q E (.error e, s) ↔ E e s := Iff.rfl

/-- From `P`, the command returns with `Q` or fails with `E`. -/
def Triple (P : σ → Prop) (c : Cmd σ ε α) (Q : α → σ → Prop) (E : ε → σ → Prop) : Prop :=
  ∀ s, P s → Ends Q E (c s)

variable {P : σ → Prop} {Q : α → σ → Prop} {E : ε → σ → Prop}

theorem Triple.ok {c : Cmd σ ε α} (h : Triple P c Q E) {s s' : σ} {a : α} (hs : P s)
    (hc : c s = (.ok a, s')) : Q a s' := by
  have := h s hs
  rwa [hc] at this

theorem Triple.error {c : Cmd σ ε α} (h : Triple P c Q E) {s s' : σ} {e : ε} (hs : P s)
    (hc : c s = (.error e, s')) : E e s' := by
  have := h s hs
  rwa [hc] at this

theorem Triple.pure {a : α} (h : ∀ s, P s → Q a s) : Triple P (Pure.pure a : Cmd σ ε α) Q E := h

theorem Triple.gets {f : σ → α} (h : ∀ s, P s → Q (f s) s) : Triple P (Cmd.gets f : Cmd σ ε α) Q E :=
  h

theorem Triple.modify {f : σ → σ} {Q : Unit → σ → Prop} (h : ∀ s, P s → Q () (f s)) :
    Triple P (Cmd.modify f : Cmd σ ε Unit) Q E := h

/-- Sequencing: the intermediate assertion `R` links the two commands. -/
theorem Triple.bind {c : Cmd σ ε α} {f : α → Cmd σ ε β} {R : α → σ → Prop} {Q : β → σ → Prop}
    (hc : Triple P c R E) (hf : ∀ a, Triple (R a) (f a) Q E) : Triple P (c >>= f) Q E := by
  intro s hs
  rw [bind_apply]
  rcases h : c s with ⟨e | a, s'⟩
  · exact hc.error hs h
  · exact hf a s' (hc.ok hs h)

theorem Triple.ite {b : Prop} [Decidable b] {c d : Cmd σ ε α}
    (hc : b → Triple P c Q E) (hd : ¬b → Triple P d Q E) : Triple P (if b then c else d) Q E := by
  split
  · exact hc ‹_›
  · exact hd ‹_›

theorem Triple.when {p : σ → Prop} [DecidablePred p] {c : Cmd σ ε Unit} {Q : Unit → σ → Prop}
    (hc : Triple (fun s => P s ∧ p s) c Q E) (hn : ∀ s, P s → ¬p s → Q () s) : Triple P (Cmd.when p c) Q E := by
  intro s hs
  by_cases hp : p s
  · rw [when_pos hp]
    exact hc s ⟨hs, hp⟩
  · rw [when_neg hp]
    exact hn s hs hp

theorem Triple.weaken {c : Cmd σ ε α} {P' : σ → Prop} {Q' : α → σ → Prop} {E' : ε → σ → Prop}
    (h : Triple P c Q E) (hP : ∀ s, P' s → P s) (hQ : ∀ a s, Q a s → Q' a s)
    (hE : ∀ e s, E e s → E' e s) : Triple P' c Q' E' := by
  intro s hs
  rcases hc : c s with ⟨e | a, s'⟩
  · exact hE _ _ (h.error (hP s hs) hc)
  · exact hQ _ _ (h.ok (hP s hs) hc)

theorem Triple.orFail {c : Cmd σ ε' α} {e : ε} {E' : ε' → σ → Prop}
    (h : Triple P c Q E') (hE : ∀ e' s, E' e' s → E e s) : Triple P (c.orFail e) Q E := by
  intro s hs
  rcases hc : c s with ⟨e' | a, s'⟩
  · simpa [Cmd.orFail, hc] using hE e' s' (h.error hs hc)
  · simpa [Cmd.orFail, hc] using h.ok hs hc

theorem Triple.attempt {c : Cmd σ ε' α} {E' : ε' → σ → Prop} {R : Except ε' α → σ → Prop}
    (h : Triple P c Q E') (hQ : ∀ a s, Q a s → R (.ok a) s) (hE : ∀ e s, E' e s → R (.error e) s) :
    Triple P (c.attempt : Cmd σ ε (Except ε' α)) R E := by
  intro s hs
  rcases hc : c s with ⟨e' | a, s'⟩
  · simpa [Cmd.attempt, hc] using hE e' s' (h.error hs hc)
  · simpa [Cmd.attempt, hc] using hQ a s' (h.ok hs hc)

/-- A command on a component, run inside the larger state. -/
theorem Triple.zoom {get : τ → σ} {set : τ → σ → τ} {c : Cmd σ ε α} {P : τ → Prop}
    {Q : α → τ → Prop} {E : ε → τ → Prop}
    (h : ∀ t, P t → Ends (fun a s => Q a (set t s)) (fun e s => E e (set t s)) (c (get t))) :
    Triple P (c.zoom get set) Q E := by
  intro t ht
  have := h t ht
  rcases hc : c (get t) with ⟨e | a, s'⟩
  · simpa [Cmd.zoom, hc] using this
  · simpa [Cmd.zoom, hc] using this

/-! ### Moves -/

/-- Whether it returns or fails, the command takes the state along `R`. -/
def Moves (R : σ → σ → Prop) (c : Cmd σ ε α) : Prop := ∀ s, R s (c s).2

section Moves

variable {R : σ → σ → Prop} {S : τ → τ → Prop}

theorem Moves.pure (hr : ∀ s, R s s) (a : α) : Moves R (Pure.pure a : Cmd σ ε α) := hr

theorem Moves.fail (hr : ∀ s, R s s) (e : ε) : Moves R (Cmd.fail e : Cmd σ ε α) := hr

theorem Moves.gets (hr : ∀ s, R s s) (f : σ → α) : Moves R (Cmd.gets f : Cmd σ ε α) := hr

theorem Moves.modify {f : σ → σ} (h : ∀ s, R s (f s)) : Moves R (Cmd.modify f : Cmd σ ε Unit) := h

theorem Moves.ensure (hr : ∀ s, R s s) (p : σ → Prop) [DecidablePred p] (e : ε) :
    Moves R (Cmd.ensure p e : Cmd σ ε Unit) := by
  intro s
  rw [ensure_apply]
  split <;> exact hr s

theorem Moves.bind (ht : ∀ {s t u}, R s t → R t u → R s u) {c : Cmd σ ε α} {f : α → Cmd σ ε β} (hc : Moves R c)
    (hf : ∀ a, Moves R (f a)) : Moves R (c >>= f) := by
  intro s
  have h := hc s
  rw [bind_apply]
  rcases hs : c s with ⟨e | a, s'⟩ <;> rw [hs] at h
  · exact h
  · exact ht h (hf a s')

theorem Moves.ite {b : Prop} [Decidable b] {c d : Cmd σ ε α} (hc : Moves R c) (hd : Moves R d) :
    Moves R (if b then c else d) := by
  split
  · exact hc
  · exact hd

theorem Moves.when (hr : ∀ s, R s s) {p : σ → Prop} [DecidablePred p] {c : Cmd σ ε Unit} (hc : Moves R c) :
    Moves R (Cmd.when p c) := by
  intro s
  by_cases hp : p s
  · rw [when_pos hp]
    exact hc s
  · rw [when_neg hp]
    exact hr s

theorem Moves.orFail {c : Cmd σ ε' α} (hc : Moves R c) (e : ε) : Moves R (c.orFail e) := by
  intro s
  have h := hc s
  rcases hs : c s with ⟨e' | a, s'⟩ <;> rw [hs] at h
  · simpa [Cmd.orFail, hs] using h
  · simpa [Cmd.orFail, hs] using h

theorem Moves.attempt {c : Cmd σ ε' α} (hc : Moves R c) : Moves R (c.attempt : Cmd σ ε (Except ε' α)) := hc

/-- What `R` carries along holds after the command, however it ends. -/
theorem Moves.keeps {c : Cmd σ ε α} (hc : Moves R c) {P : σ → Prop} (h : ∀ {s t}, R s t → P s → P t) :
    Triple P c (fun _ => P) (fun _ => P) := by
  intro s hs
  have hP := h (hc s) hs
  rcases hcs : c s with ⟨e | a, s'⟩ <;> rw [hcs] at hP <;> exact hP

theorem Moves.zoom {get : τ → σ} {set : τ → σ → τ} {c : Cmd σ ε α} (hc : Moves R c)
    (h : ∀ t s, R (get t) s → S t (set t s)) : Moves S (c.zoom get set) := fun t => h t _ (hc (get t))

end Moves

end Cmd

end Qcc730.Lib
