import Qcc730.Timer.Timers
import Qcc730.Lib.Fuel
import Qcc730.Lib.Modular

/-! The microsecond clock.

    Ticks of the counter are converted to time by a product and a quotient in 64 bits, and time to ticks in the same
    way. A delay reads the clock until it has gone on far enough. -/

namespace Qcc730.Timer

open Lib

/-- How many of a unit there are in a second. -/
def TimeUnit.perSec : TimeUnit → ℕ
  | .tick => qtmrCntrFreqHz
  | .usec => 1000000
  | .msec => 1000
  | .sec => 1

/-- `qtmr_tick_to_usec` -/
def qtmrTickToUsec (tick : ℕ) : ℕ := tick * 1000000 % 2 ^ 64 / qtmrCntrFreqHz

/-- `qtmr_usec_to_tick` -/
def qtmrUsecToTick (usec : ℕ) : ℕ := usec * qtmrCntrFreqHz % 2 ^ 64 / 1000000

theorem qtmrTickToUsec_eq (tick : ℕ) : qtmrTickToUsec tick = timerCvtFromTick64 tick .usec := rfl

theorem qtmrUsecToTick_eq (usec : ℕ) : qtmrUsecToTick usec = timerCvtToTick64 usec .usec := rfl

/-- `hres_timer_curr_time_us`, when the counter reads `ticks` -/
def hresTimerCurrTimeUs (ticks : ℕ) : ℕ := timerCvtFromTick64 ticks .usec

/-- The loop of `hres_timer_us_delay` from its `j`-th reading of the counter on, and the reading after which it ends. -/
def delayLoop (clock : ℕ → ℕ) (targetTime : ℕ) : ℕ → ℕ → Option ℕ
  | 0, _ => none
  | fuel + 1, j =>
    if hresTimerCurrTimeUs (clock j) < targetTime then delayLoop clock targetTime fuel (j + 1) else some j

/-- `hres_timer_us_delay`, when the counter reads `clock 0`, `clock 1` and so on -/
def hresTimerUsDelay (clock : ℕ → ℕ) (timeUs fuel : ℕ) : Option ℕ :=
  delayLoop clock ((hresTimerCurrTimeUs (clock 0) + timeUs) % 2 ^ 64) fuel 0

/-! ### Conversion -/

section Conversion

variable {ticks time : ℕ} {unit : TimeUnit}

theorem qtmrCntrFreqHz_pos : 0 < qtmrCntrFreqHz := by decide

/-- The product must not wrap. -/
theorem timerCvtFromTick64_eq_iff (hu : unit = .usec ∨ unit = .msec) :
    timerCvtFromTick64 ticks unit = ticks * unit.perSec / qtmrCntrFreqHz ↔ ticks * unit.perSec < 2 ^ 64 := by
  obtain rfl | rfl := hu
  · exact mod_div_eq_iff qtmrCntrFreqHz_pos (by decide)
  · exact mod_div_eq_iff qtmrCntrFreqHz_pos (by decide)

/-- In a unit that divides, the product must not wrap. -/
theorem timerCvtToTick64_eq_iff (hfit : time * qtmrCntrFreqHz / unit.perSec < 2 ^ 64) :
    timerCvtToTick64 time unit = time * qtmrCntrFreqHz / unit.perSec ↔
      (unit = .usec ∨ unit = .msec → time * qtmrCntrFreqHz < 2 ^ 64) := by
  cases unit with
  | tick => simp [timerCvtToTick64, TimeUnit.perSec, Nat.mul_div_cancel _ qtmrCntrFreqHz_pos]
  | sec =>
    rw [TimeUnit.perSec, Nat.div_one] at hfit
    rw [timerCvtToTick64, TimeUnit.perSec, Nat.div_one, Nat.mod_eq_of_lt hfit]
    simp
  | usec =>
    rw [timerCvtToTick64, TimeUnit.perSec, mod_div_eq_iff (by decide) (by decide)]
    simp
  | msec =>
    rw [timerCvtToTick64, TimeUnit.perSec, mod_div_eq_iff (by decide) (by decide)]
    simp

end Conversion

/-! ### Delay -/

section Delay

variable {clock : ℕ → ℕ} {target fuel j k n : ℕ}

/-- The loop ends after the first reading that has come to the target. -/
theorem delayLoop_some (h : delayLoop clock target fuel j = some k) :
    j ≤ k ∧ target ≤ hresTimerCurrTimeUs (clock k) ∧ ∀ i, j ≤ i → i < k → hresTimerCurrTimeUs (clock i) < target := by
  induction fuel generalizing j with
  | zero => cases h
  | succ fuel ih =>
    rw [delayLoop] at h
    split at h
    · rename_i hlt
      obtain ⟨hle, htarget, hbefore⟩ := ih h
      refine ⟨Nat.le_of_succ_le hle, htarget, fun i hi hik => ?_⟩
      obtain rfl | hlt' := Nat.eq_or_lt_of_le hi
      · exact hlt
      · exact hbefore i hlt' hik
    · rename_i hge
      cases h
      exact ⟨le_rfl, Nat.le_of_not_lt hge, fun i hi hij => absurd hi (Nat.not_le.mpr hij)⟩

/-- It ends if there is one. -/
theorem delayLoop_isSome (hjk : j ≤ k) (hk : target ≤ hresTimerCurrTimeUs (clock k)) :
    ∃ i, delayLoop clock target (k - j + 1) j = some i := by
  induction hd : k - j generalizing j with
  | zero =>
    obtain rfl : j = k := by omega
    exact ⟨j, if_neg (Nat.not_lt.mpr hk)⟩
  | succ d ih =>
    rw [delayLoop]
    split
    · exact ih (by omega) (by omega)
    · exact ⟨j, rfl⟩

end Delay

/-! ### The clock -/

section Clock

variable {clock : ℕ → ℕ} {n : ℕ}

/-- Over the readings of the counter the clock is exact and never goes back, and a delay of `n` us ends, and not before
    the counter has gone on for `n` us. -/
structure Measures (clock : ℕ → ℕ) (n : ℕ) : Prop where
  exact (j : ℕ) : hresTimerCurrTimeUs (clock j) = clock j * 1000000 / qtmrCntrFreqHz
  mono (j k : ℕ) : clock j ≤ clock k → hresTimerCurrTimeUs (clock j) ≤ hresTimerCurrTimeUs (clock k)
  delay : ∃ fuel k, hresTimerUsDelay clock n fuel = some k ∧ n * qtmrCntrFreqHz ≤ (clock k - clock 0) * 1000000

/-- The condition on the readings: no product wraps, and none of them is `n` whole microseconds later than the first one
    while less than `n` us went by. -/
structure Readable (clock : ℕ → ℕ) (n : ℕ) : Prop where
  fits (j : ℕ) : clock j * 1000000 < 2 ^ 64
  whole (j : ℕ) : clock 0 * 1000000 / qtmrCntrFreqHz + n ≤ clock j * 1000000 / qtmrCntrFreqHz →
    n * qtmrCntrFreqHz ≤ (clock j - clock 0) * 1000000

theorem hresTimerCurrTimeUs_eq_iff {ticks : ℕ} :
    hresTimerCurrTimeUs ticks = ticks * 1000000 / qtmrCntrFreqHz ↔ ticks * 1000000 < 2 ^ 64 :=
  timerCvtFromTick64_eq_iff (.inl rfl)

/-- The time at which a delay is over does not wrap. -/
theorem target_eq (ticks : ℕ) (hn : n < 2 ^ 32) :
    (hresTimerCurrTimeUs ticks + n) % 2 ^ 64 = hresTimerCurrTimeUs ticks + n := by
  refine Nat.mod_eq_of_lt ?_
  have hle : hresTimerCurrTimeUs ticks ≤ (2 ^ 64 - 1) / qtmrCntrFreqHz :=
    Nat.div_le_div_right (Nat.le_sub_one_of_lt (Nat.mod_lt _ (by decide)))
  have hnum : (2 ^ 64 - 1) / qtmrCntrFreqHz < 2 ^ 40 := by decide
  omega

theorem Measures.readable (h : Measures clock n) (hclock : Monotone clock) (hn : n < 2 ^ 32) : Readable clock n := by
  refine ⟨fun j => hresTimerCurrTimeUs_eq_iff.mp (h.exact j), fun j hj => ?_⟩
  obtain ⟨fuel, k, hk, hlong⟩ := h.delay
  rw [hresTimerUsDelay, target_eq _ hn] at hk
  obtain ⟨-, -, hbefore⟩ := delayLoop_some hk
  rw [← h.exact 0, ← h.exact j] at hj
  -- the loop ended no later than with this reading
  have hkj : k ≤ j := by
    by_contra hjk
    exact absurd (hbefore j (Nat.zero_le j) (Nat.lt_of_not_le hjk)) (Nat.not_lt.mpr hj)
  have hle := hclock hkj
  exact hlong.trans (Nat.mul_le_mul_right _ (Nat.sub_le_sub_right hle _))

theorem Readable.measures (h : Readable clock n) (hclock : Monotone clock) (hn : n < 2 ^ 32)
    (hlong : ∃ j, n * qtmrCntrFreqHz ≤ (clock j - clock 0) * 1000000) : Measures clock n := by
  have hexact : ∀ j, hresTimerCurrTimeUs (clock j) = clock j * 1000000 / qtmrCntrFreqHz := fun j =>
    hresTimerCurrTimeUs_eq_iff.mpr (h.fits j)
  refine ⟨hexact, fun j k hjk => ?_, ?_⟩
  · rw [hexact, hexact]
    exact Nat.div_le_div_right (Nat.mul_le_mul_right _ hjk)
  · obtain ⟨j, hj⟩ := hlong
    have htarget : hresTimerCurrTimeUs (clock 0) + n ≤ hresTimerCurrTimeUs (clock j) := by
      have hle := Nat.mul_le_mul_right 1000000 (hclock (Nat.zero_le j))
      have hsum : clock 0 * 1000000 + n * qtmrCntrFreqHz ≤ clock j * 1000000 := by
        rw [Nat.sub_mul] at hj
        exact (Nat.add_le_add_left hj _).trans_eq (Nat.add_sub_cancel' hle)
      have hadd := Nat.add_mul_div_right (clock 0 * 1000000) n qtmrCntrFreqHz_pos
      have hdiv := Nat.div_le_div_right (c := qtmrCntrFreqHz) hsum
      rw [hadd, ← hexact, ← hexact] at hdiv
      exact hdiv
    obtain ⟨k, hk⟩ := delayLoop_isSome (Nat.zero_le j) htarget
    refine ⟨j - 0 + 1, k, ?_, ?_⟩
    · rw [hresTimerUsDelay, target_eq _ hn]
      exact hk
    · obtain ⟨-, hge, -⟩ := delayLoop_some hk
      rw [hexact, hexact] at hge
      exact h.whole k hge

/-- The conversions are exact, the clock never goes back and a delay is long enough, if and only if no product wraps and
    no reading is a whole number of microseconds later before that time went by. -/
theorem time_exact_iff (ticks time : ℕ) (unit : TimeUnit) (hclock : Monotone clock) (hn : n < 2 ^ 32)
    (hlong : ∃ j, n * qtmrCntrFreqHz ≤ (clock j - clock 0) * 1000000) :
    ((unit = .usec ∨ unit = .msec → timerCvtFromTick64 ticks unit = ticks * unit.perSec / qtmrCntrFreqHz) ∧
      (time * qtmrCntrFreqHz / unit.perSec < 2 ^ 64 →
        timerCvtToTick64 time unit = time * qtmrCntrFreqHz / unit.perSec) ∧ Measures clock n) ↔
    (unit = .usec ∨ unit = .msec → ticks * unit.perSec < 2 ^ 64) ∧
      (time * qtmrCntrFreqHz / unit.perSec < 2 ^ 64 → unit = .usec ∨ unit = .msec → time * qtmrCntrFreqHz < 2 ^ 64) ∧
      Readable clock n := by
  refine and_congr (forall_congr' fun hu => timerCvtFromTick64_eq_iff hu)
    (and_congr (forall_congr' fun hfit => timerCvtToTick64_eq_iff hfit) ⟨fun h => h.readable hclock hn, fun h => ?_⟩)
  exact h.measures hclock hn hlong

/-- A day of the counter at one reading a second, with a delay of 2.5 s. -/
theorem time_exact_day : Measures (fun j => min j 86400 * qtmrCntrFreqHz) 2500000 := by
  have hmono : Monotone fun j => min j 86400 * qtmrCntrFreqHz := fun a b hab =>
    Nat.mul_le_mul_right _ (min_le_min_right _ hab)
  have hlong : 2500000 * qtmrCntrFreqHz ≤ (3 * qtmrCntrFreqHz - min 0 86400 * qtmrCntrFreqHz) * 1000000 := by
    decide
  refine ((time_exact_iff 86400 86400 .tick hmono (by decide) ⟨3, hlong⟩).mpr ⟨by decide, by decide, ?_, ?_⟩).2.2
  · intro j
    have hj := Nat.mul_le_mul_right qtmrCntrFreqHz (min_le_right j 86400)
    have hday : 86400 * qtmrCntrFreqHz * 1000000 < 2 ^ 64 := by decide
    exact (Nat.mul_le_mul_right 1000000 hj).trans_lt hday
  · intro j hj
    have hsec : ∀ x, x * qtmrCntrFreqHz * 1000000 / qtmrCntrFreqHz = x * 1000000 := fun x => by
      rw [Nat.mul_right_comm, Nat.mul_div_cancel _ qtmrCntrFreqHz_pos]
    simp only [hsec] at hj
    have hle : 3 ≤ min j 86400 := by
      clear hlong
      omega
    exact hlong.trans (Nat.mul_le_mul_right _ (Nat.sub_le_sub_right (Nat.mul_le_mul_right _ hle) _))

/-- After some five days the clock goes back to 0, and so do conversions of a time that long. A delay of 1 us can be
    over after one tick. -/
theorem time_inexact :
    timerCvtFromTick64 18446744073710 .usec ≠ 18446744073710 * 1000000 / qtmrCntrFreqHz ∧
    hresTimerCurrTimeUs 18446744073709 = 480383960252 ∧ hresTimerCurrTimeUs 18446744073710 = 0 ∧
    timerCvtToTick64 480383960253 .usec ≠ 480383960253 * qtmrCntrFreqHz / 1000000 ∧
    480383960253 * qtmrCntrFreqHz / 1000000 < 2 ^ 64 ∧
    hresTimerUsDelay (fun j => 38 + j) 1 2 = some 1 ∧ ¬ 1 * qtmrCntrFreqHz ≤ (39 - 38) * 1000000 := by
  decide

end Clock

end Qcc730.Timer
