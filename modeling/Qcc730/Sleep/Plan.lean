import Mathlib.Data.List.TakeWhile
import Qcc730.Sleep.Relink
import Qcc730.Timer.Timers

/-! How long to sleep.

    The idle task says in ticks of a millisecond how long it has nothing to do, and the time to the first
    high-resolution timer is given in microseconds. The power manager takes one of the two, keeps it for the entry of
    the RTOS and registers that. -/

namespace Qcc730.Sleep

open Lib Timer

/-- `portMAX_DELAY` -/
def portMaxDelay : ℕ := 0xFFFFFFFF

/-- `xMaximumPossibleSuppressedTicks` -/
def xMaximumPossibleSuppressedTicks : ℕ := 0xFFFFFFF

/-- `_SOCPM_STOP_TMR_COMP` -/
def socpmStopTmrComp : ℕ := 2

/-- What the RTOS and the platform answer: whether the timer task is the first one that is delayed, whether its
    wake-up may be ignored for the given head, the next time to sleep to, and the delay of the hardware when it leaves
    the MCU sleep. -/
structure Rtos where
  isTimertaskHandle : Bool
  ignoreTimerWakeup : ℕ → Bool
  nextSleepTime : ℕ
  sleepExitHwDelay : ℕ

/-- The ticks that `vPortSuppressTicksAndSleep` asks for. -/
def suppressTicks (xExpectedIdleTime : ℕ) : ℕ :=
  let x := min xExpectedIdleTime xMaximumPossibleSuppressedTicks
  if x > socpmStopTmrComp then x - socpmStopTmrComp else x

/-- `nt_socpm_get_sleep_time`, for the head `h` at the time `t` of the timers. What the timers give is compared as it
    is. -/
def socpmGetSleepTime (r : Rtos) (h : ℕ) (timers : Timers) (t curSlpVal : ℕ) : Timers × ℕ :=
  let (timers, msTime) := timers.hresTimerPreSleep t
  if msTime ≤ curSlpVal then (timers, msTime)
  else if r.isTimertaskHandle ∧ ¬ r.ignoreTimerWakeup h then (timers, curSlpVal)
  else if r.isTimertaskHandle then (timers, r.nextSleepTime)
  else (timers, curSlpVal)

/-- The updated sleep value is cut off, and the time that the timer is stopped is taken off. -/
def compensate (slpVal updatedSlpVal : ℕ) : ℕ :=
  let u := if updatedSlpVal ≠ slpVal ∧ updatedSlpVal > xMaximumPossibleSuppressedTicks then
    xMaximumPossibleSuppressedTicks else updatedSlpVal
  if u ≠ slpVal ∧ u > socpmStopTmrComp then u - socpmStopTmrComp else u

namespace Soc

/-- `nt_socpm_sleep_solver` -/
def sleepSolver (s : Soc) (r : Rtos) (sleepTime : ℕ) : SleepMode :=
  if sleepTime > r.sleepExitHwDelay ∧ sleepTime ≥ s.suppMinMs * 1000 then .mcuSleep else .clkGtdSleep

/-- The part of `nt_socpm_soc_sleep_processing` that fills `_socpm_os_tmr`. -/
def fillOsTmr (s : Soc) (r : Rtos) (timers : Timers) (osTmr : SleepInfo) (slpVal t : ℕ) : Timers × SleepInfo :=
  match s.slpLstHead.filter (s.slpTime · ≠ 0) with
  | some h =>
    let (timers, updatedSlpVal) := socpmGetSleepTime r h timers t slpVal
    if updatedSlpVal ≠ portMaxDelay then
      let u := compensate slpVal updatedSlpVal
      (timers, { osTmr with
        slpTime := u * 1000
        slpMode := if u ≠ xMaximumPossibleSuppressedTicks - socpmStopTmrComp ∧ s.slpMode h ≠ .clkGtdSleep then
          s.sleepSolver r (u * 1000) else .clkGtdSleep })
    else (timers, osTmr)
  | none => (timers, { osTmr with slpTime := slpVal * 1000, slpMode := .clkGtdSleep })

/-- The registration that follows, with the clock as in the other registrations. -/
def registerOsTmr (s : Soc) (osTmr : SleepInfo) (offset : ℕ) (d : ℕ → ℕ) : Option Soc :=
  if osTmr.slpMode ≠ .clkGtdSleep ∧ osTmr.slpTime = portMaxDelay then some s
  else
    (sleepRegister { s with slpExit := false } (some osTmr) s.slpListIdxRtos offset d).map fun (s, i) =>
      { s with slpListIdxRtos := i }

/-- The high-resolution timers are asked. -/
def Consults (s : Soc) : Prop := ∃ h, s.slpLstHead = some h ∧ s.slpTime h ≠ 0

/-- The microseconds from `t` to an expiry. -/
def usUntil (t expiry : ℕ) : ℕ := (expiry - t) * 1000000 / qtmrCntrFreqHz

variable {s s' : Soc} {L M A B : List ℕ} {i j k : ℕ}

/-! ### The sleep timer -/

theorem arm_slpTmr (h : s.slpLstHead = some k) :
    s.arm.slpTmr = if s.processRoutine = false ∧ 0 < s.slpTime k then some (s.slpTime k) else s.slpTmr := by
  rw [arm]
  simp only [h]
  cases s.processRoutine with
  | true => simp
  | false =>
    by_cases hpos : 0 < s.slpTime k
    · simp [hpos, slpTmrSet]
    · simp [hpos]

/-- An entry goes to the front. -/
def First (f : ℕ → ℕ) (i k : ℕ) : Prop := f k < 1 ∨ f i < f k ∧ 0 < f i

instance (f : ℕ → ℕ) (i k : ℕ) : Decidable (First f i k) := inferInstanceAs (Decidable (_ ∨ _))

/-- What the sleep timer is set for when the entry `i` is linked into the list `k :: M`. -/
theorem lstReorder_slpTmr (h : s.Lists (k :: M)) (hlen : (k :: M).length ≤ socpmSlpLstSz) (hki : k ≠ i)
    (hs' : s.lstReorder i = some s') :
    (First s.slpTime i k →
      s'.slpTmr = if s.processRoutine = false ∧ 0 < s.slpTime i then some (s.slpTime i) else s.slpTmr) ∧
    (¬ First s.slpTime i k → (∃ m ∈ M, s.slpTime i < s.slpTime m) → s'.slpTmr = s.slpTmr) ∧
    (¬ First s.slpTime i k → (∀ m ∈ M, s.slpTime m ≤ s.slpTime i) →
      s'.slpTmr = if s.processRoutine = false ∧ 0 < s.slpTime k then some (s.slpTime k) else s.slpTmr) := by
  have hhead : s.slpLstHead = some k := h.1
  have hfirst : ((s.slpTime k < 1 ∧ k ≠ i) ∨ (s.slpTime k > s.slpTime i ∧ s.slpTime i > 0)) ↔ First s.slpTime i k := by
    simp [First, hki]
  rw [lstReorder] at hs'
  by_cases hf : First s.slpTime i k
  · have hf' := hfirst.mpr hf
    simp only [hhead, Option.some.injEq, if_neg hki, if_pos hf'] at hs'
    refine ⟨fun _ => ?_, fun h => absurd hf h, fun h => absurd hf h⟩
    rw [← hs', arm_slpTmr (k := i) rfl]
    split <;> rfl
  · have hf' := fun h => hf (hfirst.mp h)
    simp only [hhead, Option.some.injEq, if_neg hki, if_neg hf'] at hs'
    obtain ⟨A, z, B, hL, hA, hB, hplace⟩ := place_eq (i := i) h.2 (Nat.lt_of_succ_le hlen)
    rw [hplace] at hs'
    -- entries with more time are those from `B` on
    have hM : M = (A ++ [z]).tail ++ B := by
      cases A with
      | nil => simpa using (List.cons.inj hL).2
      | cons a A => simpa using (List.cons.inj hL).2
    refine ⟨fun h => absurd h hf, fun _ hm => ?_, fun _ hall => ?_⟩
    · cases B with
      | nil =>
        obtain ⟨m, hm, hlt⟩ := hm
        rw [hM, List.append_nil] at hm
        exact absurd hlt (not_lt.mpr (hA m hm))
      | cons b B =>
        simp only [List.isEmpty_cons, Bool.not_false, Option.some.injEq] at hs'
        rw [← hs']
        rfl
    · cases B with
      | nil =>
        simp only [List.isEmpty_nil, Bool.not_true, Option.some.injEq] at hs'
        rw [← hs']
        split
        · exact arm_slpTmr (s := s.setNext z (some i)) hhead
        · exact arm_slpTmr hhead
      | cons b B => exact absurd (hB b rfl) (not_lt.mpr (hall b (by simp [hM])))

/-- An entry without time is not linked in at the end. -/
theorem lstReorder_zero (h : s.Lists (k :: M)) (hlen : (k :: M).length ≤ socpmSlpLstSz) (hki : k ≠ i)
    (hfirst : ¬ First s.slpTime i k) (hall : ∀ m ∈ M, s.slpTime m ≤ s.slpTime i) (hi : s.slpTime i = 0)
    (hs' : s.lstReorder i = some s') : s'.Lists (k :: M) := by
  have hhead : s.slpLstHead = some k := h.1
  have hfirst' : ¬ ((s.slpTime k < 1 ∧ k ≠ i) ∨ (s.slpTime k > s.slpTime i ∧ s.slpTime i > 0)) := fun h =>
    hfirst (h.imp_left And.left)
  obtain ⟨A, z, B, hL, hA, hB, hplace⟩ := place_eq (i := i) h.2 (Nat.lt_of_succ_le hlen)
  rw [lstReorder] at hs'
  simp only [hhead, Option.some.injEq, if_neg hki, if_neg hfirst', hplace] at hs'
  cases B with
  | nil =>
    simp only [List.isEmpty_nil, Bool.not_true, hi, gt_iff_lt, lt_self_iff_false, false_and, if_false,
      Option.some.injEq] at hs'
    rw [← hs']
    exact h.arm
  | cons b B =>
    have hb : b ∈ M := by
      cases A with
      | nil => simp [(List.cons.inj hL).2]
      | cons a A => simp [(List.cons.inj hL).2]
    exact absurd (hB b rfl) (not_lt.mpr (hall b hb))

/-- The sleep timer is not set for more than the time of any entry of the list. -/
def Least (s : Soc) : Prop := ∀ v, s.slpTmr = some v → ∀ j, s.InList j → v ≤ s.slpTime j

/-- The same before an entry `i` is linked into `k :: M`, over the times `f`. -/
def LeastAt (f : ℕ → ℕ) (i k : ℕ) (M : List ℕ) : Prop :=
  (First f i k → f i = 0 ∨ ∀ j ∈ (k :: M).takeWhile (· ≠ i), f i ≤ f j) ∧
  (¬ First f i k → (∀ m ∈ M, f m ≤ f i) → ∀ j ∈ k :: M, f k ≤ f j)

/-- Who is in the list when the entry goes to the front. -/
theorem lstReorder_first (h : s.Lists (k :: M)) (hlen : (k :: M).length ≤ socpmSlpLstSz) (hki : k ≠ i)
    (hnext : i ∉ M → s.next i = none) (hfirst : First s.slpTime i k) (hs' : s.lstReorder i = some s') :
    ∀ j ≠ i, s'.InList j ↔ j ∈ (k :: M).takeWhile (· ≠ i) := by
  intro j hj
  by_cases hi : i ∈ M
  · obtain ⟨A, B, rfl⟩ := List.append_of_mem hi
    have hiA : i ∉ k :: A := (Lists.segment h).2.1
    obtain ⟨x, hx, -, hin⟩ := lstReorder_forward h hlen (hfirst.imp_right .inl)
    cases hs'.symm.trans hx
    rw [← List.cons_append, List.takeWhile_append_of_pos (fun a ha => by simpa using ne_of_mem_of_not_mem ha hiA),
      List.takeWhile_cons_of_neg (by simp), List.append_nil, hin]
    simp [hj]
  · have hiL : i ∉ k :: M := by simp [Ne.symm hki, hi]
    obtain ⟨x, hx, -, hsub, hkeep⟩ := lstReorder_keeps h hlen (.inl ⟨hiL, hnext hi⟩)
    cases hs'.symm.trans hx
    rw [List.takeWhile_eq_self_iff.mpr fun a ha => by simpa using ne_of_mem_of_not_mem ha hiL]
    exact ⟨fun hin => (hsub j hin).resolve_left hj, fun hin => hkeep j hin hj⟩

/-- Who is in the list when the entry goes to the end. -/
theorem lstReorder_last (h : s.Lists (k :: M)) (hlen : (k :: M).length ≤ socpmSlpLstSz) (hki : k ≠ i)
    (hnext : i ∉ M → s.next i = none) (hfirst : ¬ First s.slpTime i k) (hall : ∀ m ∈ M, s.slpTime m ≤ s.slpTime i)
    (hs' : s.lstReorder i = some s') :
    (∀ j ∈ k :: M, s'.InList j) ∧ ∀ j, s'.InList j → j ∈ k :: M ∨ j = i ∧ 0 < s.slpTime i := by
  obtain hzero | hpos := Nat.eq_zero_or_pos (s.slpTime i)
  · have hl := lstReorder_zero h hlen hki hfirst hall hzero hs'
    exact ⟨fun j hj => hl.inList.mpr hj, fun j hj => .inl (hl.inList.mp hj)⟩
  · by_cases hi : i ∈ M
    · obtain ⟨A, B, rfl⟩ := List.append_of_mem hi
      have hforward : ¬ Forward s.slpTime k A (s.slpTime i) := by
        rintro (hf | hf | ⟨a, ha, hlt⟩)
        · exact hfirst (.inl hf)
        · exact hfirst (.inr hf)
        · exact absurd hlt (not_lt.mpr (hall a (by simp [ha])))
      obtain ⟨x, hx, -, hsub, hkeep, -⟩ := lstReorder_back h hlen hforward
      cases hs'.symm.trans hx
      exact ⟨hkeep fun b hb => hall b (by simp [hb]), fun j hj => .inl (hsub j hj)⟩
    · have hiL : i ∉ k :: M := by simp [Ne.symm hki, hi]
      obtain ⟨x, hx, -, hsub, hkeep⟩ := lstReorder_keeps h hlen (.inl ⟨hiL, hnext hi⟩)
      cases hs'.symm.trans hx
      refine ⟨fun j hj => hkeep j hj (ne_of_mem_of_not_mem hj hiL), fun j hj => ?_⟩
      exact (hsub j hj).elim (fun heq => .inr ⟨heq, hpos⟩) .inl

theorem lstReorder_least_iff (h : s.Lists (k :: M)) (hlen : (k :: M).length ≤ socpmSlpLstSz) (hki : k ≠ i)
    (hnext : i ∉ M → s.next i = none) (hoff : s.slpTmr = none) (hroutine : s.processRoutine = false)
    (hs' : s.lstReorder i = some s') (htime : s'.slpTime = s.slpTime) : s'.Least ↔ LeastAt s.slpTime i k M := by
  obtain ⟨h1, h2, h3⟩ := lstReorder_slpTmr h hlen hki hs'
  simp only [hoff, hroutine, true_and] at h1 h2 h3
  rw [Least, htime]
  by_cases hfirst : First s.slpTime i k
  · have hin := lstReorder_first h hlen hki hnext hfirst hs'
    rw [h1 hfirst, LeastAt]
    simp only [hfirst, true_implies, not_true_eq_false, false_implies, and_true]
    obtain hzero | hpos := Nat.eq_zero_or_pos (s.slpTime i)
    · simp [hzero]
    · simp only [hpos, if_true, Option.some.injEq, forall_eq', Nat.ne_of_gt hpos, false_or]
      constructor
      · intro hall j hj
        have hne : j ≠ i := by simpa using (List.mem_takeWhile_imp hj)
        exact hall j ((hin j hne).mpr hj)
      · intro hall j hj
        obtain rfl | hne := eq_or_ne j i
        · exact le_rfl
        · exact hall j ((hin j hne).mp hj)
  · rw [LeastAt]
    simp only [hfirst, false_implies, true_and, not_false_eq_true, true_implies]
    by_cases hall : ∀ m ∈ M, s.slpTime m ≤ s.slpTime i
    · have hk : 0 < s.slpTime k := Nat.pos_of_ne_zero fun h0 => hfirst (.inl (by omega))
      obtain ⟨hkeep, hsub⟩ := lstReorder_last h hlen hki hnext hfirst hall hs'
      rw [h3 hfirst hall]
      simp only [hk, if_true, Option.some.injEq, forall_eq']
      refine ⟨fun hle _ j hj => hle j (hkeep j hj), fun hle j hj => ?_⟩
      obtain hj | ⟨rfl, hpos⟩ := hsub j hj
      · exact hle hall j hj
      · exact not_lt.mp fun hlt => hfirst (.inr ⟨hlt, hpos⟩)
    · have hm : ∃ m ∈ M, s.slpTime i < s.slpTime m := by
        push Not at hall
        exact hall
      rw [h2 hfirst hm]
      exact iff_of_true (by simp) fun hle => absurd hle hall

/-- The list without its head, if that is the entry `i`. -/
def behind (i : ℕ) (L : List ℕ) : List ℕ := if L.head? = some i then L.tail else L

theorem behind_sublist : (behind i L).Sublist L := by
  rw [behind]
  split
  · exact List.tail_sublist L
  · exact List.Sublist.refl L

theorem behind_ne (hnodup : L.Nodup) (h : behind i L = k :: M) : k ≠ i := by
  rintro rfl
  rw [behind] at h
  split at h
  · rename_i hhead
    obtain ⟨L', rfl⟩ := List.head?_eq_some_iff.mp hhead
    have h : L' = k :: M := h
    exact (List.nodup_cons.mp hnodup).1 (by simp [h])
  · rename_i hhead
    exact hhead (by rw [h]; rfl)

/-- The condition on the list `L` for which the times are `f`. -/
def LeastBehind (f : ℕ → ℕ) (i : ℕ) (L : List ℕ) : Prop :=
  match behind i L with
  | [] => True
  | k :: M => LeastAt f i k M

/-- The only entry. -/
theorem lstReorder_alone (h : s.Lists []) (hnext : s.next i = none) (hoff : s.slpTmr = none)
    (hs' : s.lstReorder i = some s') : s'.Least := by
  have hhead : s.slpLstHead = none := h
  simp only [lstReorder, hhead, reduceCtorEq, if_false, Option.some.injEq] at hs'
  subst hs'
  have hl : ({ s with slpLstHead := some i } : Soc).arm.Lists [i] := Lists.arm ⟨rfl, hnext⟩
  have hd : s.SameData ({ s with slpLstHead := some i } : Soc).arm := SameData.arm ⟨_, _, _, _, rfl⟩
  intro v hv j hj
  rw [hl.inList, List.mem_singleton] at hj
  rw [arm_slpTmr (k := i) rfl] at hv
  rw [hj, hd.slpTime]
  split at hv
  · exact le_of_eq (Option.some.inj hv).symm
  · cases hoff.symm.trans hv

theorem listSearch_frame :
    (s.listSearch i).slpTmr = s.slpTmr ∧ (s.listSearch i).processRoutine = s.processRoutine := by
  rw [listSearch]
  split
  · exact ⟨rfl, rfl⟩
  · exact ⟨rfl, rfl⟩

/-- The head goes first, if it is the entry itself. -/
theorem lstReorder_behind (h : s.Lists L) (hnext : i ∉ L → s.next i = none) :
    ∃ y : Soc, s.lstReorder i = y.lstReorder i ∧ y.Lists (behind i L) ∧ (i ∉ behind i L → y.next i = none) ∧
      y.slpTmr = s.slpTmr ∧ y.processRoutine = s.processRoutine ∧ y.slpTime = s.slpTime := by
  by_cases hhead : L.head? = some i
  · obtain ⟨L, rfl⟩ := List.head?_eq_some_iff.mp hhead
    obtain ⟨hl, hd, hnone, -⟩ := h.listSearch
    exact ⟨s.listSearch i, lstReorder_head h, by rwa [behind, if_pos hhead], fun _ => hnone, listSearch_frame.1,
      listSearch_frame.2, hd.slpTime⟩
  · rw [behind, if_neg hhead]
    exact ⟨s, rfl, h, hnext, rfl, rfl, rfl⟩

/-- The timer is set for the least time if and only if the condition is met. -/
theorem lstReorder_leastBehind_iff (h : s.Lists L) (hlen : L.length ≤ socpmSlpLstSz)
    (hnext : i ∉ L → s.next i = none) (hoff : s.slpTmr = none) (hroutine : s.processRoutine = false) :
    (∀ s', s.lstReorder i = some s' → s'.Least) ↔ LeastBehind s.slpTime i L := by
  obtain ⟨y, hy, hlists, hnone, htmr, hroutine', htime⟩ := lstReorder_behind h hnext
  rw [hy, ← htime, LeastBehind]
  cases hbehind : behind i L with
  | nil =>
    rw [hbehind] at hlists hnone
    exact iff_of_true (fun s' hs' => lstReorder_alone hlists (hnone List.not_mem_nil) (htmr.trans hoff) hs') trivial
  | cons k M =>
    have hlen' : (k :: M).length ≤ socpmSlpLstSz := hbehind ▸ le_trans behind_sublist.length_le hlen
    rw [hbehind] at hlists hnone
    obtain ⟨s', hs', hd, -⟩ := lstReorder_within (i := i) hlists hlen' hnone
    have hki := behind_ne h.nodup hbehind
    have hleast := lstReorder_least_iff hlists hlen' hki (fun hi => hnone (by simp [Ne.symm hki, hi]))
      (htmr.trans hoff) (hroutine'.trans hroutine) hs' hd.slpTime
    rw [hs']
    simpa using hleast

/-- While the routine of the warm boot runs, the timer is not set. -/
theorem lstReorder_routine (hroutine : s.processRoutine = true) (hs' : s.lstReorder i = some s') :
    s'.slpTmr = s.slpTmr := by
  have harm : ∀ {x : Soc}, x.processRoutine = true → x.arm.slpTmr = x.slpTmr := fun {x} hx => by
    cases hhead : x.slpLstHead with
    | none => simp only [arm, hhead]
    | some k => simp [arm_slpTmr hhead, hx]
  obtain ⟨y, hy, htmr, hroutine'⟩ : ∃ y, (if s.slpLstHead = some i then s.listSearch i else s) = y ∧
      y.slpTmr = s.slpTmr ∧ y.processRoutine = true := by
    refine ⟨_, rfl, ?_⟩
    split
    · exact ⟨listSearch_frame.1, listSearch_frame.2.trans hroutine⟩
    · exact ⟨rfl, hroutine⟩
  simp only [lstReorder, hy] at hs'
  rw [← htmr]
  split at hs'
  · cases hs'
    exact harm hroutine'
  · split at hs'
    · cases hs'
      refine (harm ?_).trans ?_
      · simp only [setNext]
        split <;> exact hroutine'
      · simp only [setNext]
        split <;> rfl
    · split at hs'
      · cases hs'
      · cases hs'
        rfl
      · cases hs'
        split
        · exact harm hroutine'
        · exact harm hroutine'

/-- The entries that are linked when a registration begins. The first one without an index takes the entry 0, and cuts
    off what follows it. -/
def linkedFor (s : Soc) (listIdx : Option ℕ) (L : List ℕ) : List ℕ :=
  if listIdx = none ∧ s.lastSlpCount = none then L.takeWhile (· ≠ 0) ++ (if 0 ∈ L then [0] else []) else L

/-- A registration is not skipped. -/
def Registers (osTmr : SleepInfo) : Prop := ¬ (osTmr.slpMode ≠ .clkGtdSleep ∧ osTmr.slpTime = portMaxDelay)

/-- The condition on the list, at the time at which the registration of `osTmr` brings it up to date. -/
def RegistersLeast (s : Soc) (osTmr : SleepInfo) (listIdx : Option ℕ) (offset : ℕ) (d : ℕ → ℕ) (L : List ℕ) : Prop :=
  Registers osTmr → s.processRoutine = false → (listIdx = none → ∀ c, s.lastSlpCount = some c → c < socpmSlpLstSz) →
    s.target listIdx < socpmSlpLstSz →
    LeastBehind ((s.entering osTmr (s.target listIdx) offset d).leftOf (s.now + d 0 + d 1) (s.linkedFor listIdx L))
      (s.target listIdx) (s.linkedFor listIdx L)

section Register

variable (info : SleepInfo) (offset : ℕ) (d : ℕ → ℕ)

/-- A list for an entry, with the timer off. -/
theorem enter_least_iff (hl : s.Lists L) (hlen : L.length ≤ socpmSlpLstSz) (hstart : ∀ j ∈ L, s.startTimeUs j ≤ s.now)
    (hnext : i ∉ L → s.next i = none) (hoff : s.slpTmr = none) :
    (∀ s', s.enter info i offset d = some s' → s'.Least) ↔
      (s.processRoutine = false → LeastBehind ((s.entering info i offset d).leftOf (s.now + d 0 + d 1) L) i L) := by
  obtain ⟨g, c, hrun, -⟩ := enter_goes (i := i) (d := d) info offset hl hlen hstart
  rw [hrun]
  generalize (s.entering info i offset d).leftOf (s.now + d 0 + d 1) L = f
  cases hroutine : s.processRoutine with
  | true =>
    have hroutine' : (((s.entering info i offset d).retime f g).setNow c).processRoutine = true := hroutine
    refine iff_of_true (fun s' hs' v hv => ?_) fun h => by cases h
    cases hoff.symm.trans ((lstReorder_routine hroutine' hs').symm.trans hv)
  | false =>
    have hleast := lstReorder_leastBehind_iff (s := ((s.entering info i offset d).retime f g).setNow c) hl hlen hnext hoff
      hroutine
    exact hleast.trans ⟨fun h _ => h, fun h => h rfl⟩

/-- The update of the entry `i`. -/
theorem update_least_iff (hf : s.Formed L) (hoff : s.slpTmr = none) :
    (∀ s' n, s.update (some info) i offset d = some (s', n) → s'.Least) ↔
      (s.processRoutine = false → i < socpmSlpLstSz →
        LeastBehind ((s.entering info i offset d).leftOf (s.now + d 0 + d 1) L) i L) := by
  by_cases hi : i < socpmSlpLstSz
  · have hrun : (∀ s' n, s.update (some info) i offset d = some (s', n) → s'.Least) ↔
        ∀ s', s.enter info i offset d = some s' → s'.Least := by
      refine ⟨fun h s' hs' => h s' (some i) ?_, fun h s' n hs' => ?_⟩
      · simp only [update, if_pos hi, hs', Option.map_some]
      · simp only [update, if_pos hi] at hs'
        obtain ⟨x, hx, hs'⟩ := Option.map_eq_some_iff.mp hs'
        cases hs'
        exact h _ hx
    rw [hrun, enter_least_iff info offset d hf.lists hf.length_le hf.start_le (hf.off i) hoff]
    simp [hi]
  · refine iff_of_true (fun s' n hs' v hv => ?_) fun _ h => absurd h hi
    simp only [update, if_neg hi] at hs'
    cases hs'
    cases hoff.symm.trans hv

/-- The first registration without an index. -/
theorem first_least_iff (hf : s.Formed L) (hoff : s.slpTmr = none) (hlast : s.lastSlpCount = none) :
    (∀ s', enter { s.setNext 0 none with lastSlpCount := some 0 } info 0 offset d = some s' → s'.Least) ↔
      (s.processRoutine = false →
        LeastBehind ((s.entering info 0 offset d).leftOf (s.now + d 0 + d 1) (s.linkedFor none L)) 0
          (s.linkedFor none L)) := by
  have hlinked : s.linkedFor none L = L.takeWhile (· ≠ 0) ++ (if 0 ∈ L then [0] else []) := if_pos ⟨rfl, hlast⟩
  obtain ⟨hsub, hl⟩ : (s.linkedFor none L).Sublist L ∧
      ({ s.setNext 0 none with lastSlpCount := some 0 } : Soc).Lists (s.linkedFor none L) := by
    rw [hlinked]
    by_cases h0 : 0 ∈ L
    · obtain ⟨A, B, rfl⟩ := List.append_of_mem h0
      have h0A : 0 ∉ A := fun h => (List.nodup_append.mp hf.lists.nodup).2.2 0 h 0 List.mem_cons_self rfl
      obtain ⟨r, hA, rfl, -⟩ := Path.append_iff.mp hf.lists
      rw [if_pos h0, List.takeWhile_append_of_pos (fun a ha => by simpa using ne_of_mem_of_not_mem ha h0A),
        List.takeWhile_cons_of_neg (by simp), List.append_nil]
      exact ⟨(List.Sublist.refl A).append (by simp), Path.snoc_iff.mpr ⟨hA.update h0A, by simp [setNext]⟩⟩
    · rw [if_neg h0, List.append_nil,
        List.takeWhile_eq_self_iff.mpr fun a ha => by simpa using ne_of_mem_of_not_mem ha h0]
      exact ⟨List.Sublist.refl L, hf.lists.update h0⟩
  exact enter_least_iff (s := { s.setNext 0 none with lastSlpCount := some 0 }) info offset d hl
    (le_trans hsub.length_le hf.length_le) (fun j hj => hf.start_le j (hsub.subset hj))
    (fun _ => by simp [setNext]) hoff

theorem register_least_iff (listIdx : Option ℕ) (hf : s.Formed L) (hoff : s.slpTmr = none) (hinfo : Registers info) :
    (∀ s' n, s.sleepRegister (some info) listIdx offset d = some (s', n) → s'.Least) ↔
      s.RegistersLeast info listIdx offset d L := by
  rw [RegistersLeast]
  simp only [hinfo, true_implies]
  cases listIdx with
  | some i =>
    have hlinked : s.linkedFor (some i) L = L := if_neg (by simp)
    rw [hlinked]
    have hrun : s.sleepRegister (some info) (some i) offset d = s.update (some info) i offset d := rfl
    rw [hrun, update_least_iff info offset d hf hoff]
    simp [target]
  | none =>
    cases hlast : s.lastSlpCount with
    | some c =>
      have htarget : s.target none = s.listNo c + 1 := by simp [target, hlast]
      have hlinked : s.linkedFor none L = L := if_neg (by simp [hlast])
      rw [htarget, hlinked]
      by_cases hc : c < socpmSlpLstSz
      · have hrun : (∀ s' n, s.sleepRegister (some info) none offset d = some (s', n) → s'.Least) ↔
            ∀ s' n, s.update (some info) (s.listNo c + 1) offset d = some (s', n) → s'.Least := by
          simp only [sleepRegister, hlast, if_pos hc]
          refine ⟨fun h s' n hs' => ?_, fun h s' n hs' => ?_⟩
          · exact h { s' with lastSlpCount := some (c + 1) } n (Option.map_eq_some_iff.mpr ⟨(s', n), hs', rfl⟩)
          · obtain ⟨⟨x, m⟩, hx, hs'⟩ := Option.map_eq_some_iff.mp hs'
            cases hs'
            exact h x _ hx
        rw [hrun, update_least_iff info offset d hf hoff]
        simp [hc]
      · refine iff_of_true (fun s' n hs' => ?_) fun _ h => absurd (h rfl c rfl) hc
        simp only [sleepRegister, hlast, if_neg hc] at hs'
        cases hs'
    | none =>
      have htarget : s.target none = 0 := by simp [target, hlast]
      have hrun : (∀ s' n, s.sleepRegister (some info) none offset d = some (s', n) → s'.Least) ↔
          ∀ s', enter { s.setNext 0 none with lastSlpCount := some 0 } info 0 offset d = some s' → s'.Least := by
        simp only [sleepRegister, hlast]
        refine ⟨fun h s' hs' => ?_, fun h s' n hs' => ?_⟩
        · exact h s' (some 0) (Option.map_eq_some_iff.mpr ⟨s', hs', rfl⟩)
        · obtain ⟨x, hx, hs'⟩ := Option.map_eq_some_iff.mp hs'
          cases hs'
          exact h _ hx
      rw [hrun, first_least_iff info offset d hf hoff hlast, htarget]
      simp [socpmSlpLstSz]

/-- The registration sets the timer for no more than the least time of the list if and only if the condition is met. -/
theorem registerOsTmr_least_iff (hf : s.Formed L) :
    (∀ s', s.slptmrOff.registerOsTmr info offset d = some s' → s'.Least) ↔
      s.RegistersLeast info s.slpListIdxRtos offset d L := by
  by_cases hinfo : Registers info
  · have hf' : ({ s.slptmrOff with slpExit := false } : Soc).Formed L := ⟨hf.1, hf.2, hf.3, hf.4⟩
    refine Iff.trans ⟨fun h s' n hs' => ?_, fun h s' hs' => ?_⟩ (register_least_iff
      (s := { s.slptmrOff with slpExit := false }) info offset d s.slpListIdxRtos hf' rfl hinfo)
    · refine h { s' with slpListIdxRtos := n } ?_
      rw [registerOsTmr, if_neg hinfo]
      exact Option.map_eq_some_iff.mpr ⟨(s', n), hs', rfl⟩
    · rw [registerOsTmr, if_neg hinfo] at hs'
      obtain ⟨⟨x, n⟩, hx, rfl⟩ := Option.map_eq_some_iff.mp hs'
      exact h x n hx
  · refine iff_of_true (fun s' hs' v hv => ?_) fun h => absurd h hinfo
    rw [registerOsTmr, if_pos (not_not.mp hinfo)] at hs'
    cases hs'
    cases hv

end Register

/-! ### The time to sleep -/

theorem compensate_le {u slpVal : ℕ} (h : u ≤ slpVal) (hmax : slpVal ≤ xMaximumPossibleSuppressedTicks) :
    compensate slpVal u ≤ u ∧ u ≤ 3 * compensate slpVal u := by
  have hcut : ¬ (u ≠ slpVal ∧ u > xMaximumPossibleSuppressedTicks) := by omega
  simp only [compensate, if_neg hcut, socpmStopTmrComp]
  split <;> omega

theorem compensate_self (slpVal : ℕ) : compensate slpVal slpVal = slpVal := by
  simp [compensate]

/-- The conversion does not wrap before the idle time. -/
theorem usUntil_or {d slpVal : ℕ} (hmax : slpVal ≤ xMaximumPossibleSuppressedTicks) :
    timerCvtFromTick64 d .usec = d * 1000000 / qtmrCntrFreqHz ∨ 1000 * slpVal ≤ d * 1000000 / qtmrCntrFreqHz := by
  by_cases hwrap : d * 1000000 < 2 ^ 64
  · exact .inl (by rw [timerCvtFromTick64, Nat.mod_eq_of_lt hwrap])
  · refine .inr ?_
    rw [Nat.le_div_iff_mul_le (by decide)]
    simp only [qtmrCntrFreqHz, xMaximumPossibleSuppressedTicks] at hmax ⊢
    omega

variable {r : Rtos} {timers : Timers} {osTmr : SleepInfo} {slpVal t : ℕ}

/-- The answer of the timers is the time to the first expiry, or that is after the idle time. -/
theorem hresTimerPreSleep_us {f : ℕ} (hmax : slpVal ≤ xMaximumPossibleSuppressedTicks) (hfirst : timers.first = some f) :
    (timers.hresTimerPreSleep t).2 = usUntil t (timers.expiry f) ∨ 1000 * slpVal ≤ usUntil t (timers.expiry f) := by
  simp only [Timers.hresTimerPreSleep, Timers.timetickGet, hfirst]
  split
  · rename_i hpast
    refine .inl ?_
    rw [usUntil, Nat.sub_eq_zero_of_le (le_of_lt hpast), Nat.zero_mul, Nat.zero_div]
  · exact usUntil_or hmax

/-- The time of the RTOS is taken: its timer task is the next, but need not wake up, and the high-resolution timers
    answer more than the idle time. -/
def Ignores (r : Rtos) (h : ℕ) (timers : Timers) (t slpVal : ℕ) : Prop :=
  r.isTimertaskHandle = true ∧ r.ignoreTimerWakeup h = true ∧ slpVal < (timers.hresTimerPreSleep t).2

/-- What is then stored. -/
def rtosTime (r : Rtos) (osTmr : SleepInfo) (slpVal : ℕ) : ℕ :=
  if r.nextSleepTime ≠ portMaxDelay then compensate slpVal r.nextSleepTime * 1000 else osTmr.slpTime

theorem socpmGetSleepTime_eq (h : ℕ) :
    (Ignores r h timers t slpVal → (socpmGetSleepTime r h timers t slpVal).2 = r.nextSleepTime) ∧
    (¬ Ignores r h timers t slpVal →
      (socpmGetSleepTime r h timers t slpVal).2 = min (timers.hresTimerPreSleep t).2 slpVal) := by
  simp only [Ignores, socpmGetSleepTime]
  by_cases hle : (timers.hresTimerPreSleep t).2 ≤ slpVal
  · simp [hle]
  · have hlt : slpVal < (timers.hresTimerPreSleep t).2 := not_le.mp hle
    rw [min_eq_right (le_of_lt hlt)]
    by_cases htask : r.isTimertaskHandle = true
    · by_cases hignore : r.ignoreTimerWakeup h = true
      · simp [hle, htask, hignore, hlt]
      · simp [hle, htask, hignore]
    · simp [hle, htask]

/-- What is stored for the RTOS. -/
theorem fillOsTmr_consults {h : ℕ} (hhead : s.slpLstHead = some h) (ht : s.slpTime h ≠ 0)
    (hmax : slpVal ≤ xMaximumPossibleSuppressedTicks) :
    (Ignores r h timers t slpVal → (s.fillOsTmr r timers osTmr slpVal t).2.slpTime = rtosTime r osTmr slpVal) ∧
    (¬ Ignores r h timers t slpVal → (s.fillOsTmr r timers osTmr slpVal t).2.slpTime =
      compensate slpVal (min (timers.hresTimerPreSleep t).2 slpVal) * 1000) := by
  have hfilter : s.slpLstHead.filter (s.slpTime · ≠ 0) = some h := by simp [hhead, ht]
  have hstored : (s.fillOsTmr r timers osTmr slpVal t).2.slpTime =
      if (socpmGetSleepTime r h timers t slpVal).2 ≠ portMaxDelay then
        compensate slpVal (socpmGetSleepTime r h timers t slpVal).2 * 1000 else osTmr.slpTime := by
    simp only [fillOsTmr, hfilter]
    split <;> rfl
  obtain ⟨hrtos, htimers⟩ := @socpmGetSleepTime_eq r timers slpVal t h
  refine ⟨fun hi => by rw [hstored, hrtos hi, rtosTime], fun hi => ?_⟩
  have hne : min (timers.hresTimerPreSleep t).2 slpVal ≠ portMaxDelay := by
    simp only [portMaxDelay, xMaximumPossibleSuppressedTicks] at hmax ⊢
    omega
  rw [hstored, htimers hi, if_pos hne]

/-- The condition on the timers. -/
def SleepFits (s : Soc) (r : Rtos) (timers : Timers) (osTmr : SleepInfo) (slpVal t : ℕ) : Prop :=
  ∀ h, s.slpLstHead = some h → s.slpTime h ≠ 0 →
    (Ignores r h timers t slpVal → rtosTime r osTmr slpVal ≤ 1000 * slpVal ∧
      ∀ f, timers.first = some f → rtosTime r osTmr slpVal ≤ usUntil t (timers.expiry f)) ∧
    (¬ Ignores r h timers t slpVal → ∀ f, timers.first = some f →
      usUntil t (timers.expiry f) = 0 ∨ 1000 * slpVal ≤ usUntil t (timers.expiry f))

/-- The time that is stored and registered for the RTOS is not more than the idle time, nor than the time to the first
    expiry of the timers that are asked, and the sleep timer is not set for more than the least time of the list. -/
structure PlansWithin (s : Soc) (r : Rtos) (timers : Timers) (osTmr : SleepInfo) (slpVal offset : ℕ) (d : ℕ → ℕ)
    (t : ℕ) : Prop where
  idle : (s.fillOsTmr r timers osTmr slpVal t).2.slpTime ≤ 1000 * slpVal
  expiry : s.Consults → ∀ f, timers.first = some f →
    (s.fillOsTmr r timers osTmr slpVal t).2.slpTime ≤ usUntil t (timers.expiry f)
  least : ∀ s', s.slptmrOff.registerOsTmr (s.fillOsTmr r timers osTmr slpVal t).2 offset d = some s' → s'.Least

/-- Over the answer `u` of the timers, `T` being the time to the first expiry. -/
theorem compensated_le_iff {u T : ℕ} (hmax : slpVal ≤ xMaximumPossibleSuppressedTicks)
    (hu : u = T ∨ 1000 * slpVal ≤ T) :
    compensate slpVal (min u slpVal) * 1000 ≤ T ↔ T = 0 ∨ 1000 * slpVal ≤ T := by
  obtain ⟨hle, hge⟩ := compensate_le (min_le_right u slpVal) hmax
  have hself := compensate_self slpVal
  obtain hlate | hlate := le_or_gt (1000 * slpVal) T
  · exact iff_of_true (by omega) (.inr hlate)
  · obtain rfl := hu.resolve_right (not_le.mpr hlate)
    obtain hus | hus := le_or_gt u slpVal
    · rw [min_eq_left hus] at hle hge ⊢
      omega
    · rw [min_eq_right (le_of_lt hus), hself]
      omega

/-- For every sleep list, idle time and list of timers the plan is within the next event if and only if the conditions
    are met. -/
theorem plans_within_iff (hf : s.Formed L) (hmax : slpVal ≤ xMaximumPossibleSuppressedTicks) (offset : ℕ)
    (d : ℕ → ℕ) :
    s.PlansWithin r timers osTmr slpVal offset d t ↔
      s.SleepFits r timers osTmr slpVal t ∧
        s.RegistersLeast (s.fillOsTmr r timers osTmr slpVal t).2 s.slpListIdxRtos offset d L := by
  rw [← registerOsTmr_least_iff _ offset d hf]
  refine Iff.trans (b := ((s.fillOsTmr r timers osTmr slpVal t).2.slpTime ≤ 1000 * slpVal ∧
      (s.Consults → ∀ f, timers.first = some f →
        (s.fillOsTmr r timers osTmr slpVal t).2.slpTime ≤ usUntil t (timers.expiry f))) ∧
      ∀ s', s.slptmrOff.registerOsTmr (s.fillOsTmr r timers osTmr slpVal t).2 offset d = some s' → s'.Least)
    ⟨fun h => ⟨⟨h.idle, h.expiry⟩, h.least⟩, fun h => ⟨h.1.1, h.1.2, h.2⟩⟩ (and_congr_left fun _ => ?_)
  by_cases hc : s.Consults
  · obtain ⟨h, hhead, ht⟩ := hc
    have hfits : s.SleepFits r timers osTmr slpVal t ↔
        (Ignores r h timers t slpVal → rtosTime r osTmr slpVal ≤ 1000 * slpVal ∧
          ∀ f, timers.first = some f → rtosTime r osTmr slpVal ≤ usUntil t (timers.expiry f)) ∧
        (¬ Ignores r h timers t slpVal → ∀ f, timers.first = some f →
          usUntil t (timers.expiry f) = 0 ∨ 1000 * slpVal ≤ usUntil t (timers.expiry f)) := by
      refine ⟨fun hs => hs h hhead ht, fun hs h' hhead' _ => ?_⟩
      cases hhead.symm.trans hhead'
      exact hs
    have hconsults : s.Consults := ⟨h, hhead, ht⟩
    obtain ⟨hrtos, htimers⟩ := @fillOsTmr_consults s r timers osTmr slpVal t h hhead ht hmax
    rw [hfits]
    by_cases hi : Ignores r h timers t slpVal
    · rw [hrtos hi]
      simp [hi, hconsults]
    · rw [htimers hi]
      have hidle : compensate slpVal (min (timers.hresTimerPreSleep t).2 slpVal) * 1000 ≤ 1000 * slpVal := by
        have := (compensate_le (min_le_right (timers.hresTimerPreSleep t).2 slpVal) hmax).1
        have := min_le_right (timers.hresTimerPreSleep t).2 slpVal
        omega
      simp only [hi, hidle, hconsults, true_and, true_implies, false_implies, not_false_eq_true]
      refine forall₂_congr fun f hfirst => compensated_le_iff hmax (hresTimerPreSleep_us hmax hfirst)
  · have hnone : s.slpLstHead.filter (s.slpTime · ≠ 0) = none := by
      rw [Option.filter_eq_none_iff]
      intro h hhead ht
      exact hc ⟨h, hhead, by simpa using ht⟩
    have hstored : (s.fillOsTmr r timers osTmr slpVal t).2.slpTime = slpVal * 1000 := by
      simp only [fillOsTmr, hnone]
    rw [hstored]
    refine iff_of_true ⟨by omega, fun h => absurd h hc⟩ fun h hhead ht => absurd ⟨h, hhead, ht⟩ hc

end Soc

theorem suppressTicks_le (x : ℕ) : suppressTicks x ≤ xMaximumPossibleSuppressedTicks := by
  simp only [suppressTicks]
  split <;> omega

/-- An answer without anything special. -/
def Rtos.plain : Rtos := ⟨false, fun _ => false, 0, 0⟩

/-- One timer, for the tick `expiry`. -/
def oneTimer (expiry : ℕ) : Timers :=
  { Timers.init (fun _ => 0) with first := some 0, last := some 0, expiry := fun _ => expiry }

/-- The task is idle for 10 s, and the first timer expires in 20 s. Every look at the clock takes a microsecond. -/
theorem plans_within_later :
    { Soc.row 2 (fun _ => 20) fun _ _ => false with slpListIdxRtos := some 5 }.PlansWithin .plain (oneTimer 768000000)
      (.plain 0) (suppressTicks 10002) 0 (fun _ => 1) 0 := by
  have hrow : (Soc.row 2 (fun _ => 20) fun _ _ => false).Formed [0, 1] := Soc.row_formed (by decide)
  have hf : ({ Soc.row 2 (fun _ => 20) fun _ _ => false with slpListIdxRtos := some 5 } : Soc).Formed [0, 1] :=
    ⟨hrow.1, hrow.2, hrow.3, hrow.4⟩
  refine (Soc.plans_within_iff hf (suppressTicks_le 10002) 0 fun _ => 1).mpr
    ⟨fun h hh _ => ⟨fun hi => ?_, fun _ f hfirst => ?_⟩, fun _ _ _ _ => ⟨fun hfirst => ?_, fun _ _ => ?_⟩⟩
  · cases hi.1
  · cases hfirst
    exact .inr (by decide)
  · revert hfirst
    decide
  · decide

/-- The task is idle for 10 s, and the first timer expires in 5000 microseconds: these are taken as 5000 ticks, less
    2. When the head is overdue, the sleep timer is set for its time once more, though the next entry has less left. -/
theorem plans_past :
    (let s := { Soc.row 2 (fun _ => 20) fun _ _ => false with slpListIdxRtos := some 5 }
    s.Formed [0, 1] ∧ Soc.usUntil 0 192000 = 5000 ∧
      (s.fillOsTmr .plain (oneTimer 192000) (.plain 0) 10000 0).2.slpTime = 4998000 ∧
      ¬ s.PlansWithin .plain (oneTimer 192000) (.plain 0) 10000 0 still 0) ∧
    (let s := { Soc.row 2 (fun i => 10 + 3 * i) fun _ _ => false with slpListIdxRtos := some 5 }
    s.Formed [0, 1] ∧ (s.slptmrOff.registerOsTmr (.plain 1000) 0 still).map (fun s' => (s'.slpTmr, s'.slpTime 1)) =
      some (some 10, 3)) := by
  have hrow : (Soc.row 2 (fun _ => 20) fun _ _ => false).Formed [0, 1] := Soc.row_formed (by decide)
  have hlate : (Soc.row 2 (fun i => 10 + 3 * i) fun _ _ => false).Formed [0, 1] := Soc.row_formed (by decide)
  have hstored : ({ Soc.row 2 (fun _ => 20) fun _ _ => false with slpListIdxRtos := some 5 }.fillOsTmr .plain
      (oneTimer 192000) (.plain 0) 10000 0).2.slpTime = 4998000 := by decide
  refine ⟨⟨⟨hrow.1, hrow.2, hrow.3, hrow.4⟩, by decide, hstored, fun h => ?_⟩,
    ⟨hlate.1, hlate.2, hlate.3, hlate.4⟩, rfl⟩
  have hle := h.expiry ⟨0, rfl, by decide⟩ 0 rfl
  rw [hstored] at hle
  exact absurd hle (by decide)

end Qcc730.Sleep
