import Qcc730.Timer.Order

/-! Calls of `hres_timer_set_64` that are to be refused.

    The unit is looked at first. After that the timer is taken out of the active list and marked as set before the task
    of the caller is looked at, a handle that leads nowhere leaves a pointer without a value, and of the errors of
    `timer_set` only `TE_FAIL`, which it never returns, is passed on. -/

namespace Qcc730.Timer

open Lib

namespace Timers

variable {s : Timers} {timer task time t t' : ℕ} {reload : Bool} {unit : TimeUnit}

/-- The handle leads to no timer of the variable: it is invalid or stale, or of another variable. -/
def Ownerless (s : Timers) (timer : ℕ) : Prop :=
  ∀ i, s.timerGetClientTimer timer = some i → s.externalTimer i ≠ timer

/-- The variable has a timer, but the caller is not its task. -/
def FromOther (s : Timers) (timer task : ℕ) : Prop :=
  ∃ i, s.timerGetClientTimer timer = some i ∧ s.externalTimer i = timer ∧ s.taskInfo i ≠ some task

/-- The call is one to refuse. -/
def ToRefuse (s : Timers) (timer task : ℕ) (unit : TimeUnit) : Prop :=
  s.Ownerless timer ∨ s.FromOther timer task ∨ unit = .sec

/-- The call comes back with an error, and nothing has changed. -/
def Refuses (s : Timers) (timer task time : ℕ) (reload : Bool) (unit : TimeUnit) (t t' : ℕ) : Prop :=
  ∃ e, s.hresTimerSet64 timer task time reload unit t t' = some (s, e) ∧ e ≠ .success

/-- NULL is reported as an error by `timer_set`. -/
theorem timerSet_null : s.timerSet 0 task time unit reload t t' = some (s, .invalidParameters) := by
  rw [timerSet, if_pos rfl]

/-- With any other handle that leads nowhere, `timer_set` goes on with a pointer that has no value. -/
theorem timerSet_ownerless (h : s.Ownerless timer) (h0 : timer ≠ 0) :
    s.timerSet timer task time unit reload t t' = none := by
  have hprep : s.timerPrepForSet timer = none := by
    rw [timerPrepForSet]
    cases hclient : s.timerGetClientTimer timer with
    | none => rfl
    | some i => exact if_pos (h i hclient)
  rw [timerSet, if_neg h0, hprep]

/-- For another task than the timer's own, the timer is out of the list and marked as set when the error is
    reported. A timer without a task leads to NULL. -/
theorem timerSet_fromOther (h : s.FromOther timer task) :
    ∃ i, s.timerGetClientTimer timer = some i ∧ s.timerSet timer task time unit reload t t' =
      (s.taskInfo i).map fun _ => ((s.timerRemove i).1.setState i .setFlag, .invalidTask) := by
  obtain ⟨i, hclient, hext, htask⟩ := h
  have h0 : timer ≠ 0 := (timerGetClientTimer_eq_some.mp hclient).1
  have hprep : s.timerPrepForSet timer = some ((s.timerRemove i).1.setState i .setFlag, i) := by
    simp only [timerPrepForSet, hclient, hext, ne_eq, not_true_eq_false, if_false]
  have hinfo : ((s.timerRemove i).1.setState i .setFlag).taskInfo i = s.taskInfo i := by
    rw [timerRemove]
    split <;> rfl
  refine ⟨i, hclient, ?_⟩
  rw [timerSet, if_neg h0, hprep]
  simp only [hinfo]
  cases howner : s.taskInfo i with
  | none => rfl
  | some owner =>
    have hne : owner ≠ task := fun heq => htask (by rw [howner, heq])
    simp only [Option.map_some, if_pos hne]

/-- Whatever `timer_set` reports, the wrapper reports success. -/
theorem hresTimerSet64_success {s' : Timers} {e : TimerError} (hu : unit ≠ .sec)
    (hr : s.hresTimerSet64 timer task time reload unit t t' = some (s', e)) : e = .success := by
  rw [hresTimerSet64, if_neg hu] at hr
  obtain ⟨r, -, hr⟩ := Option.map_eq_some_iff.mp hr
  cases hr
  rfl

/-- What becomes of a call that is to be refused and has a supported unit: it is not defined, or it does nothing and
    reports success, or it takes the timer out of the list, marks it as set and reports success. -/
theorem hresTimerSet64_toRefuse (h : s.Ownerless timer ∨ s.FromOther timer task) (hu : unit ≠ .sec) :
    s.hresTimerSet64 timer task time reload unit t t' = none ∨
    s.hresTimerSet64 timer task time reload unit t t' = some (s, .success) ∨
    ∃ i, s.timerGetClientTimer timer = some i ∧ s.hresTimerSet64 timer task time reload unit t t' =
      some ((s.timerRemove i).1.setState i .setFlag, .success) := by
  rw [hresTimerSet64, if_neg hu]
  rcases h with h | h
  · obtain rfl | h0 := eq_or_ne timer 0
    · rw [timerSet_null]
      exact .inr (.inl rfl)
    · rw [timerSet_ownerless h h0]
      exact .inl rfl
  · obtain ⟨i, hclient, hset⟩ := timerSet_fromOther h
    rw [hset]
    cases s.taskInfo i with
    | none => exact .inl rfl
    | some owner => exact .inr (.inr ⟨i, hclient, rfl⟩)

/-- A call with a supported unit is never refused. -/
theorem not_refuses (hu : unit ≠ .sec) : ¬ s.Refuses timer task time reload unit t t' := by
  rintro ⟨e, hr, hne⟩
  exact hne (hresTimerSet64_success hu hr)

theorem refuses_sec : s.Refuses timer task time reload .sec t t' :=
  ⟨.invalidUnit, by rw [hresTimerSet64, if_pos rfl], by decide⟩

/-- A call that is to be refused is refused if and only if it is one with an unsupported unit. -/
theorem set_refused_iff (s : Timers) (timer task time : ℕ) (reload : Bool) (unit : TimeUnit) (t t' : ℕ) :
    (s.ToRefuse timer task unit → s.Refuses timer task time reload unit t t') ↔
      (s.ToRefuse timer task unit → unit = .sec) := by
  constructor
  · intro hrefuse hcall
    by_contra hu
    exact not_refuses hu (hrefuse hcall)
  · intro hsec hcall
    obtain rfl := hsec hcall
    exact refuses_sec

/-- Task 8 sets the running timer of task 7: it is told that this is done, and the timer runs no more. A variable that
    holds no handle leads to a pointer without a value. -/
theorem set_not_refused :
    (∃ s, Event.runAll (Timers.init fun _ => 0)
        [.define 1 (some 3) (some 7), .set 1 7 100 false .tick 0 0] = some s ∧ s.first = some 0 ∧
      s.FromOther 1 8 ∧ ¬ s.Refuses 1 8 50 false .tick 10 10 ∧
      ∃ s', s.hresTimerSet64 1 8 50 false .tick 10 10 = some (s', .success) ∧ s'.first = none ∧
        s'.timerState 0 = .setFlag) ∧
    (Timers.init fun _ => 0).Ownerless 1 ∧
    (Timers.init fun _ => 0).hresTimerSet64 1 7 50 false .tick 10 10 = none := by
  refine ⟨⟨_, rfl, rfl, ⟨0, rfl, rfl, by decide⟩, not_refuses (by decide), _, rfl, rfl, rfl⟩, ?_, rfl⟩
  intro i hi
  cases hi

end Timers

end Qcc730.Timer
