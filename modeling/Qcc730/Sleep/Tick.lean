import Qcc730.Lib.Reach

/-! The tick of the RTOS over sleeps.

    The tick stands still while the processor sleeps. What went by is measured with the high-resolution timer, the whole
    milliseconds are given to `vTaskStepTick`, and the rest is carried to the next sleep. A second time, measured with
    the timer of the always-on domain, carries a rest of its own. The code here is `nt_socpm_sleep.c` and
    `nt_socpm_rtos_api.c`. -/

namespace Qcc730.Sleep

open Lib

/-- The two rests of `g_socpm_struct`, with the sum of the ticks that were given and the time that the tick stood
    still. -/
structure Tick where
  unappliedSystickErrUs : ℕ
  unappliedErrUs : ℕ
  stepped : ℕ
  elapsed : ℕ
  deriving DecidableEq, Repr

/-- How `vPortSuppressTicksAndSleep` comes to its end, with the time from `hres_time_pre_sleep` to the restart of the
    tick: a context switch is pending, A2F or F2A is asserted, `SLP_DBG_SOCPM_ON_DURING_BMPS` is set, the power-save
    demo does not allow to sleep, or there was a sleep, with `nt_socpm_get_slp_tmr_us` and `aon_program_time_us`. A
    wake-up for a beacon in between changes the second rest. -/
inductive Exit where
  | abortSleep (delta : ℕ)
  | a2f (delta : ℕ)
  | dbgUnitTest (delta : ℕ)
  | powersaveDemo (delta : ℕ)
  | slept (delta slpTmrUs aonProgramTimeUs : ℕ)
  | warmBoot (slpTmrUs aonProgramTimeUs : ℕ)

/-- `US_TO_MS` -/
def usToMs (x : ℕ) : ℕ := x / 1000

namespace Tick

variable (s : Tick)

def init : Tick := ⟨0, 0, 0, 0⟩

/-- `vTaskStepTick`, which takes a `TickType_t` -/
def vTaskStepTick (ticks : ℕ) : Tick := { s with stepped := s.stepped + ticks % 2 ^ 32 }

/-- The tick is restarted without more. -/
def systickOn (delta : ℕ) : Tick := { s with elapsed := s.elapsed + delta }

/-- The part that three of the exits have: the whole milliseconds are given, or else what `otherwise` says. -/
def restart (delta : ℕ) (otherwise : Tick → Tick) : Tick :=
  let s := s.systickOn delta
  let deltaHresTimeUs := (delta + s.unappliedSystickErrUs) % 2 ^ 64
  let deltaHresTimeMs := usToMs deltaHresTimeUs
  let s := { s with unappliedSystickErrUs := (deltaHresTimeUs - 1000 * deltaHresTimeMs) % 2 ^ 32 }
  if deltaHresTimeMs > 0 then s.vTaskStepTick deltaHresTimeMs else otherwise s

/-- One sleep, or what became of it. -/
def run (s : Tick) : Exit → Tick
  | .abortSleep delta => s.systickOn delta
  | .a2f delta => s.restart delta id
  | .dbgUnitTest delta => s.systickOn delta
  | .powersaveDemo delta => s.restart delta id
  | .slept delta slpTmrUs aonProgramTimeUs =>
    let slpExpUs := (slpTmrUs + aonProgramTimeUs + s.unappliedErrUs) % 2 ^ 64
    let slpExp := usToMs slpExpUs
    let s := { s with unappliedErrUs := (slpExpUs - 1000 * slpExp) % 2 ^ 32 }
    s.restart delta fun s => s.vTaskStepTick slpExp
  | .warmBoot slpTmrUs aonProgramTimeUs =>
    let slpTimeUs := (slpTmrUs + aonProgramTimeUs + s.unappliedErrUs) % 2 ^ 32
    { s with unappliedErrUs := slpTimeUs % 1000 }

/-- The ticks that were given are the whole milliseconds of the time, and the rest is the rest. -/
def Exact (s : Tick) : Prop := s.stepped = s.elapsed / 1000 ∧ s.unappliedSystickErrUs = s.elapsed % 1000

instance : Decidable s.Exact := inferInstanceAs (Decidable (_ ∧ _))

end Tick

/-- The time is a 64-bit value. -/
def Exit.Measured (_ : Tick) : Exit → Prop
  | .abortSleep delta | .a2f delta | .dbgUnitTest delta | .powersaveDemo delta | .slept delta _ _ => delta < 2 ^ 64
  | .warmBoot _ _ => True

/-- The condition on a sleep: where the tick is restarted without more, it stood still for no time; elsewhere the time and
    the rest are less than `2 ^ 32` ms, and after a sleep that comes to less than 1 ms, the always-on timer says less
    than 1 ms, too, as far as a `TickType_t` can tell. -/
def Exit.Fits (s : Tick) : Exit → Prop
  | .abortSleep delta | .dbgUnitTest delta => delta = 0
  | .a2f delta | .powersaveDemo delta => delta + s.unappliedSystickErrUs < 2 ^ 32 * 1000
  | .slept delta slpTmrUs aonProgramTimeUs => delta + s.unappliedSystickErrUs < 2 ^ 32 * 1000 ∧
      (delta + s.unappliedSystickErrUs < 1000 →
        usToMs ((slpTmrUs + aonProgramTimeUs + s.unappliedErrUs) % 2 ^ 64) % 2 ^ 32 = 0)
  | .warmBoot _ _ => True

namespace Tick

variable {s : Tick} {delta : ℕ} {exits : List Exit}

theorem Exact.lt (h : s.Exact) : s.unappliedSystickErrUs < 1000 := by
  rw [h.2]
  exact Nat.mod_lt _ (by decide)

/-- What went by before and is not given yet goes to what goes by now. -/
theorem add_carry {k : ℕ} (hk : 0 < k) (t d : ℕ) :
    (t + d) / k = t / k + (d + t % k) / k ∧ (t + d) % k = (d + t % k) % k := by
  have hsplit : t + d = d + t % k + k * (t / k) := by
    have := Nat.mod_add_div t k
    omega
  rw [hsplit, Nat.add_mul_div_left _ _ hk, Nat.add_mul_mod_self_left]
  exact ⟨Nat.add_comm .., rfl⟩

theorem rest_eq (x : ℕ) : (x - 1000 * usToMs x) % 2 ^ 32 = x % 1000 := by
  have hlt : x % 1000 < 2 ^ 32 := (Nat.mod_lt x (by decide)).trans (by decide)
  rw [usToMs, ← Nat.mod_eq_sub, Nat.mod_eq_of_lt hlt]

/-- What is given and what is left, by the time and the rest. -/
theorem restart_exact (h : s.Exact) (x : ℕ) : (s.restart delta fun s => s.vTaskStepTick x).Exact ↔
    (if usToMs ((delta + s.unappliedSystickErrUs) % 2 ^ 64) > 0 then
      usToMs ((delta + s.unappliedSystickErrUs) % 2 ^ 64) else x) % 2 ^ 32 = (delta + s.unappliedSystickErrUs) / 1000 ∧
    (delta + s.unappliedSystickErrUs) % 2 ^ 64 % 1000 = (delta + s.unappliedSystickErrUs) % 1000 := by
  obtain ⟨hdiv, hmod⟩ := add_carry (show 0 < 1000 by decide) s.elapsed delta
  rw [← h.2] at hdiv hmod
  have hgiven : ∀ ms : ℕ, s.stepped + ms = (s.elapsed + delta) / 1000 ↔
      ms = (delta + s.unappliedSystickErrUs) / 1000 := fun ms => by
    rw [hdiv, h.1, Nat.add_left_cancel_iff]
  rw [restart]
  by_cases hpos : usToMs ((delta + s.unappliedSystickErrUs) % 2 ^ 64) > 0
  · simp only [systickOn, if_pos hpos, Exact, vTaskStepTick, rest_eq, hmod, hgiven]
  · simp only [systickOn, if_neg hpos, Exact, vTaskStepTick, rest_eq, hmod, hgiven]

/-- The time is told exactly exactly when the time and the rest fit, and nothing more is given. -/
theorem restart_exact_iff (h : s.Exact) (hd : delta < 2 ^ 64) (x : ℕ) :
    (s.restart delta fun s => s.vTaskStepTick x).Exact ↔ delta + s.unappliedSystickErrUs < 2 ^ 32 * 1000 ∧
      (delta + s.unappliedSystickErrUs < 1000 → x % 2 ^ 32 = 0) := by
  rw [restart_exact h]
  have hz : delta + s.unappliedSystickErrUs < 2 ^ 64 + 1000 := Nat.add_lt_add hd h.lt
  generalize delta + s.unappliedSystickErrUs = z at hz ⊢
  by_cases hwrap : z < 2 ^ 64
  · rw [Nat.mod_eq_of_lt hwrap, and_iff_left rfl, usToMs]
    by_cases hms : z < 1000
    · rw [Nat.div_eq_of_lt hms, if_neg (lt_irrefl 0)]
      exact ⟨fun hx => ⟨hms.trans (by decide), fun _ => hx⟩, fun hx => hx.2 hms⟩
    · have hpos : z / 1000 > 0 := Nat.div_pos (Nat.le_of_not_lt hms) (by decide)
      rw [if_pos hpos, Nat.mod_eq_iff_lt (by decide), Nat.div_lt_iff_lt_mul (by decide)]
      exact ⟨fun hx => ⟨hx, fun hlt => absurd hlt hms⟩, fun hx => hx.1⟩
  · -- the rest is not that of the time any more
    have hmod : z % 2 ^ 64 = z - 2 ^ 64 := by
      rw [Nat.mod_eq_sub_mod (Nat.le_of_not_lt hwrap), Nat.mod_eq_of_lt (by omega)]
    refine iff_of_false (fun hx => ?_) fun hx => ?_
    · have hrest := hx.2
      rw [hmod] at hrest
      clear hx hmod
      omega
    · exact hwrap (hx.1.trans (by decide))

theorem restart_id (s : Tick) (delta : ℕ) : s.restart delta id = s.restart delta fun s => s.vTaskStepTick 0 := by
  simp only [restart, vTaskStepTick, Nat.zero_mod, Nat.add_zero, id]

/-- Each sleep keeps the tick exact if and only if it meets the condition. -/
theorem run_exact_iff (h : s.Exact) {e : Exit} (he : e.Measured s) : (s.run e).Exact ↔ e.Fits s := by
  have hsystick : ∀ {delta : ℕ}, (s.systickOn delta).Exact ↔ delta = 0 := fun {delta} => by
    obtain ⟨hstepped, hrest⟩ := h
    simp only [Exact, systickOn]
    omega
  have hrestart : ∀ {delta : ℕ}, delta < 2 ^ 64 →
      ((s.restart delta id).Exact ↔ delta + s.unappliedSystickErrUs < 2 ^ 32 * 1000) := fun {delta} hd => by
    rw [restart_id, restart_exact_iff h hd]
    exact and_iff_left fun _ => rfl
  cases e with
  | abortSleep delta => exact hsystick
  | a2f delta => exact hrestart he
  | dbgUnitTest delta => exact hsystick
  | powersaveDemo delta => exact hrestart he
  | slept delta slpTmrUs aonProgramTimeUs =>
    have hs : Exact { s with unappliedErrUs := ((slpTmrUs + aonProgramTimeUs + s.unappliedErrUs) % 2 ^ 64 -
        1000 * usToMs ((slpTmrUs + aonProgramTimeUs + s.unappliedErrUs) % 2 ^ 64)) % 2 ^ 32 } := h
    exact restart_exact_iff hs he _
  | warmBoot slpTmrUs aonProgramTimeUs => exact iff_of_true h trivial

/-- The tick is exact after each of the sleeps if and only if each meets the condition. -/
theorem tick_exact_iff (exits : List Exit) (h : Along run Exit.Measured init exits) :
    Along run (fun s e => (s.run e).Exact) init exits ↔ Along run Exit.Fits init exits :=
  Along.iff (I := Exact) (fun _ _ hs he hfits => (run_exact_iff hs he).mpr hfits) (fun _ _ hs he => run_exact_iff hs he)
    ⟨rfl, rfl⟩ h

instance (s : Tick) (e : Exit) : Decidable (e.Fits s) := by
  cases e <;> simp only [Exit.Fits] <;> infer_instance

/-- Sleeps of 1.7 ms and 0.2 ms, an abort after 0.6 ms, and a sleep of 0.7 ms. -/
theorem tick_exact_four : Along run (fun s e => (s.run e).Exact) init
    [.slept 1700 1500 100, .slept 200 0 0, .a2f 600, .slept 700 900 100] := by
  refine (tick_exact_iff _ ?_).mpr (by decide)
  simp [Along, Exit.Measured]

/-- After a sleep of 0.5 ms for which the always-on timer says 1.2 ms, a tick is given that did not go by. And the time
    for which `SLP_DBG_SOCPM_ON_DURING_BMPS` stopped the tick is lost. -/
theorem tick_drifts :
    ((init.run (.slept 500 1200 0)).stepped = 1 ∧ (init.run (.slept 500 1200 0)).elapsed / 1000 = 0 ∧
      ¬ (init.run (.slept 500 1200 0)).Exact) ∧
    ((init.run (.dbgUnitTest 1500)).stepped = 0 ∧ (init.run (.dbgUnitTest 1500)).elapsed / 1000 = 1 ∧
      ¬ (init.run (.dbgUnitTest 1500)).Exact) := by
  decide

end Tick

end Qcc730.Sleep
