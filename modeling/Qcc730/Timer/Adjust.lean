import Qcc730.Timer.Interrupt

/-! What a sleep takes from the timers.

    A sleep puts its duration into the queue of the timer task. The timer task adds what it finds there to a variable
    that is never set back, and `timer_adjust_active_list` takes the whole of it from the full duration of each active
    timer. The counter starts again at 0 when a sleep is over. -/

namespace Qcc730.Timer

open Lib

namespace Timers

variable {s s' : Timers} {L : List ℕ}

/-- What an event other than an adjustment keeps of the active list. -/
theorem Active.run {e : Event} (h : s.Active L) (he : ∀ adjustTick t, e ≠ .adjust adjustTick t)
    (hr : e.run s = some s') : s.Keeps L s' := by
  have hsame : ∀ {x : Timers}, x.Active L → x.expiry = s.expiry → s.Keeps L x := fun hx hexp =>
    ⟨L, hx, fun ho => ho.congr fun j _ => congrFun hexp j⟩
  cases e with
  | tick t =>
    cases hr
    exact hsame (h.congr rfl rfl rfl rfl rfl rfl) rfl
  | define timer timerCb taskInfo =>
    obtain ⟨-, hr⟩ := ite_eq_iff.mp hr |>.resolve_left fun hn => by simp at hn
    obtain ⟨⟨x, e⟩, hx, rfl⟩ := Option.map_eq_some_iff.mp hr
    obtain ⟨ha, ho, -⟩ := h.hresTimerDef hx
    exact ⟨L, ha, ho⟩
  | set timer task time reload unit t t' =>
    obtain ⟨-, hr⟩ := ite_eq_iff.mp hr |>.resolve_left fun hn => by simp at hn
    obtain ⟨⟨x, e⟩, hx, rfl⟩ := Option.map_eq_some_iff.mp hr
    rw [Timers.hresTimerSet64] at hx
    split at hx
    · cases hx
      exact hsame h rfl
    · obtain ⟨⟨y, e⟩, hy, hx⟩ := Option.map_eq_some_iff.mp hx
      cases hx
      exact (h.timerSet hy).1
  | stop timer t =>
    obtain ⟨-, hr⟩ := ite_eq_iff.mp hr |>.resolve_left fun hn => by simp at hn
    cases hr
    exact (h.hresTimerStop timer t).1
  | undef timer t =>
    obtain ⟨-, hr⟩ := ite_eq_iff.mp hr |>.resolve_left fun hn => by simp at hn
    cases hr
    exact (h.hresTimerUndef timer t).1
  | adjust adjustTick t => exact absurd rfl (he adjustTick t)
  | processStart t =>
    obtain ⟨-, hr⟩ := ite_eq_iff.mp hr |>.resolve_right fun hn => by simp at hn
    cases hr
    exact hsame (h.congr rfl rfl rfl rfl rfl rfl) rfl
  | processNext t =>
    obtain ⟨hphase, hr⟩ := ite_eq_iff.mp hr |>.resolve_right fun hn => by simp at hn
    obtain ⟨hend, hexp, -⟩ := h.processEnd
    cases hfirst : s.first with
    | none =>
      simp only [hfirst] at hr
      cases hr
      exact hsame hend hexp
    | some i =>
      simp only [hfirst] at hr
      split at hr
      · exact (h.processTimer hfirst hphase hr).1
      · cases hr
        exact hsame hend hexp
  | resume t =>
    obtain ⟨-, hr⟩ := ite_eq_iff.mp hr |>.resolve_right fun hn => by simp at hn
    cases hr
    exact hsame (h.congr rfl rfl rfl rfl rfl rfl) rfl

/-- An adjustment leaves the list as it is, and rebuilds the expiry of its timers. -/
theorem Active.adjusted {adjustTick t : ℕ} (h : s.Active L) (hr : s.timerAdjustActiveList adjustTick t = some s') :
    s'.Active L ∧ ∀ i ∈ L, s'.expiry i = newTime t adjustTick (s.durationSclk i) := by
  refine ⟨(h.timerAdjustActiveList hr).1, fun i hi => ?_⟩
  rw [Timers.timerAdjustActiveList] at hr
  have hadjust := @adjustFrom_eq (s.timetickGet t) L adjustTick maxTimers _ h.chained.doubly.1 h.length_le
  simp only [timetickGet] at hadjust hr
  rw [hadjust] at hr
  cases hr
  exact if_pos hi

end Timers

/-! ### Sleeps -/

/-- A sleep: when it began, and how long it was, in microseconds. -/
structure Nap where
  start : ℕ
  sleepDuration : ℕ

/-- The duration in whole ticks. -/
def Nap.ticks (n : Nap) : ℕ := n.sleepDuration * qtmrCntrFreqHz / 1000000

/-- What a timer that expires at `e` has left at the end of the sleeps: what it had when the first one began, less that
    one; what of it was left when the next one began, and so on. -/
def leftAfter (naps : List Nap) (e : ℕ) : ℕ := naps.foldl (fun left n => left - n.start - n.ticks) e

theorem leftAfter_cons (n : Nap) (naps : List Nap) (e : ℕ) :
    leftAfter (n :: naps) e = leftAfter naps (e - n.start - n.ticks) := List.foldl_cons ..

theorem leftAfter_mono (naps : List Nap) : Monotone (leftAfter naps) := by
  induction naps with
  | nil => exact monotone_id
  | cons n naps ih =>
    intro a b hab
    rw [leftAfter_cons, leftAfter_cons]
    exact ih (Nat.sub_le_sub_right (Nat.sub_le_sub_right hab _) _)

/-- What is done: sleeps one after the other, which the timer task then handles at the time `t`, or anything else. -/
inductive Turn where
  | sleeps (naps : List Nap) (t : ℕ)
  | awake (a : Act)

/-- An act that has nothing to do with a sleep. -/
def Act.ofAwake : Act → Bool
  | .call _ | .interrupt | .notifyWait | .queueReceive | .process _ => true
  | .adjust _ | .preSleep _ | .postSleep | .sleepAdjust _ => false

/-- The acts of a sleep. -/
def Nap.acts (n : Nap) : List Act := [.preSleep n.start, .sleepAdjust n.sleepDuration]

/-- The next state, if it can be done. -/
def Turn.run (m : Machine) : Turn → Option Machine
  | .sleeps naps t =>
    ((Act.runAll m (naps.flatMap Nap.acts)).bind fun m => Act.runAll m [.notifyWait, .queueReceive]).bind fun m =>
      if m.task = .adjusting then m.run (.adjust t) else some m
  | .awake a => if a.ofAwake then m.run a else none

namespace Machine

variable {m m' : Machine} {naps : List Nap} {L : List ℕ} {t : ℕ}

/-- The queue after the sleeps. -/
def queueAfter (queue : List ℕ) (naps : List Nap) : List ℕ :=
  naps.foldl (fun q n =>
    if q.length < timerTaskQueueLen then q ++ [timerCvtToTick64 n.sleepDuration .usec] else q) queue

/-- The variable of `timer_task` once it has read what the sleeps put into its queue. -/
def total (m : Machine) (naps : List Nap) : ℕ := (m.sleepDuration + (queueAfter m.queue naps).sum) % 2 ^ 64

/-- Sleeps change the queue; of the timers only the clock and a flag. -/
theorem runAll_naps (hr : Act.runAll m (naps.flatMap Nap.acts) = some m') :
    ∃ now flag pm on, m' = { m with
      timers := { m.timers with ticksNow := now, doReprogramIsr := flag }
      queue := queueAfter m.queue naps
      pmWakeup := pm
      sleeping := on } := by
  induction naps generalizing m with
  | nil =>
    cases hr
    exact ⟨_, _, _, _, rfl⟩
  | cons n naps ih =>
    by_cases hs : m.sleeping
    · simp [Act.runAll, Nap.acts, Machine.run, hs] at hr
    · obtain ⟨flag, hpre⟩ := m.timers.hresTimerPreSleep_eq n.start
      have hnap : Act.runAll m ((n :: naps).flatMap Nap.acts) = Act.runAll { m with
          timers := { m.timers with ticksNow := n.start, doReprogramIsr := flag }
          queue := queueAfter m.queue [n]
          pmWakeup := true
          sleeping := false } (naps.flatMap Nap.acts) := by
        simp [Act.runAll, Nap.acts, Machine.run, hs, hpre, queueAfter]
      rw [hnap] at hr
      obtain ⟨now, flag, pm, on, rfl⟩ := ih hr
      exact ⟨_, _, _, _, rfl⟩

/-- The timer task reads its queue. -/
theorem runAll_receive (hr : Act.runAll m [.notifyWait, .queueReceive] = some m') :
    m'.timers = m.timers ∧ m'.queue = [] ∧ m'.sleepDuration = m.slept ∧ (m'.task = .adjusting ↔ m.slept ≠ 0) := by
  obtain ⟨x, hx, hr⟩ := Option.bind_eq_some_iff.mp hr
  obtain ⟨y, hy, hr⟩ := Option.bind_eq_some_iff.mp hr
  cases hr
  obtain ⟨-, hx⟩ := ite_eq_iff.mp hx |>.resolve_right fun hn => by simp at hn
  cases hx
  cases hpm : m.pmWakeup with
  | false => simp [Machine.run, hpm] at hy
  | true =>
    simp only [Machine.run, hpm, if_true, Option.some.injEq] at hy
    cases hy
    refine ⟨rfl, rfl, rfl, ?_⟩
    have hslept : ∀ {task : TaskAt}, task ≠ .adjusting →
        ((if m.slept > 0 then TaskAt.adjusting else task) = .adjusting ↔ m.slept ≠ 0) := fun {task} hne => by
      split
      · rename_i hpos
        exact ⟨fun _ => hpos.ne', fun _ => rfl⟩
      · rename_i hpos
        exact ⟨fun heq => absurd heq hne, fun h0 => absurd (Nat.pos_of_ne_zero h0) hpos⟩
    refine hslept ?_
    split <;> decide

/-- What the timer task does after the sleeps. -/
theorem run_sleeps (hr : (Turn.sleeps naps t).run m = some m') :
    ∃ s, s.first = m.timers.first ∧ s.next = m.timers.next ∧ s.expiry = m.timers.expiry ∧
      s.durationSclk = m.timers.durationSclk ∧ (∀ L, m.timers.Active L → s.Active L) ∧
      (m.total naps = 0 ∧ m'.timers = s ∨
        m.total naps ≠ 0 ∧ s.timerAdjustActiveList (m.total naps) t = some m'.timers) := by
  obtain ⟨y, hy, hr⟩ := Option.bind_eq_some_iff.mp hr
  obtain ⟨x, hx, hy⟩ := Option.bind_eq_some_iff.mp hy
  obtain ⟨now, flag, pm, on, rfl⟩ := runAll_naps hx
  obtain ⟨htimers, -, hsleep, htask⟩ := runAll_receive hy
  refine ⟨y.timers, by rw [htimers], by rw [htimers], by rw [htimers], by rw [htimers], fun L hL => ?_, ?_⟩
  · rw [htimers]
    exact hL.congr rfl rfl rfl rfl rfl rfl
  · change y.sleepDuration = m.total naps at hsleep
    change y.task = .adjusting ↔ m.total naps ≠ 0 at htask
    split at hr
    · rename_i hadjusting
      obtain ⟨-, hr⟩ := ite_eq_iff.mp hr |>.resolve_right fun hn => by simp at hn
      obtain ⟨z, hz, rfl⟩ := Option.map_eq_some_iff.mp hr
      obtain ⟨-, hz⟩ := ite_eq_iff.mp hz |>.resolve_right fun hn => by simp at hn
      obtain ⟨on, c, a, hfollow⟩ := y.follow_eq z
      refine .inr ⟨htask.mp hadjusting, ?_⟩
      rw [hfollow, ← hsleep]
      exact hz
    · rename_i hidle
      cases hr
      exact .inl ⟨not_not.mp (fun hne => hidle (htask.mpr hne)), rfl⟩

/-! ### Charging -/

/-- After the adjustment each active timer has left what it is to have, counted from then, and the list, which is the
    one before, is in order of the expiry. -/
def Charged (m : Machine) (naps : List Nap) (t : ℕ) (m' : Machine) : Prop :=
  ∃ L, Path m.timers.next m.timers.first L none ∧ Path m'.timers.next m'.timers.first L none ∧
    (∀ i ∈ L, m'.timers.expiry i = t + leftAfter naps (m.timers.expiry i)) ∧ m'.timers.InOrder L

/-- The condition on sleeps that are adjusted at the time `t`: of each active timer the full duration is that of all
    sleeps, as the variable has it, and what the timer is to have left; or it is no more than that, and nothing is to
    be left. And the counter can reach the new expiry. -/
def Fresh (m : Machine) (naps : List Nap) (t : ℕ) : Prop :=
  ∀ L, Path m.timers.next m.timers.first L none → ∀ i ∈ L,
    (m.timers.durationSclk i = m.total naps + leftAfter naps (m.timers.expiry i) ∨
      m.timers.durationSclk i ≤ m.total naps ∧ leftAfter naps (m.timers.expiry i) = 0) ∧
    t + leftAfter naps (m.timers.expiry i) < 2 ^ 64

/-- The new expiry, for a timer with the full duration `d` that is to have `x` left. -/
theorem newTime_eq {adjustTick d x : ℕ} (hd : d = adjustTick + x ∨ d ≤ adjustTick ∧ x = 0) (hx : t + x < 2 ^ 64) :
    Timers.newTime t adjustTick d = t + x := by
  rw [Timers.newTime]
  split
  · have hsub : d - adjustTick = x := by omega
    rw [hsub, Nat.mod_eq_of_lt hx]
  · omega

theorem newTime_eq_iff {adjustTick d x : ℕ} (ht : t < 2 ^ 64) (hd : d < 2 ^ 64) :
    Timers.newTime t adjustTick d = t + x ↔
      (d = adjustTick + x ∨ d ≤ adjustTick ∧ x = 0) ∧ t + x < 2 ^ 64 := by
  refine ⟨fun h => ?_, fun h => newTime_eq h.1 h.2⟩
  rw [Timers.newTime] at h
  split at h
  · by_cases hwrap : t + (d - adjustTick) < 2 ^ 64
    · rw [Nat.mod_eq_of_lt hwrap] at h
      omega
    · have hmod : (t + (d - adjustTick)) % 2 ^ 64 = t + (d - adjustTick) - 2 ^ 64 := by
        rw [Nat.mod_eq_sub_mod (Nat.le_of_not_lt hwrap), Nat.mod_eq_of_lt (by omega)]
      rw [hmod] at h
      omega
  · omega

/-- What the sleeps do to the active list `L`. -/
theorem run_sleeps_adjusted (hL : m.timers.Active L) (hr : (Turn.sleeps naps t).run m = some m')
    (htotal : m.total naps ≠ 0) : m'.timers.Active L ∧
      ∀ i ∈ L, m'.timers.expiry i = Timers.newTime t (m.total naps) (m.timers.durationSclk i) := by
  obtain ⟨s, -, -, -, hduration, hs, ⟨h0, -⟩ | ⟨-, hadjust⟩⟩ := run_sleeps hr
  · exact absurd h0 htotal
  · rw [← hduration]
    exact (hs L hL).adjusted hadjust

/-- The timers of the active list `L` are charged, and in order. -/
theorem Fresh.charges (hfresh : m.Fresh naps t) (hL : m.timers.Active L) (ho : m.timers.InOrder L)
    (hr : (Turn.sleeps naps t).run m = some m') (htotal : m.total naps ≠ 0) : m'.timers.Active L ∧
      (∀ i ∈ L, m'.timers.expiry i = t + leftAfter naps (m.timers.expiry i)) ∧ m'.timers.InOrder L := by
  obtain ⟨hactive, hnew⟩ := run_sleeps_adjusted hL hr htotal
  have hcharged : ∀ i ∈ L, m'.timers.expiry i = t + leftAfter naps (m.timers.expiry i) := fun i hi => by
    obtain ⟨hd, hx⟩ := hfresh L hL.chained.doubly.1 i hi
    exact (hnew i hi).trans (newTime_eq hd hx)
  refine ⟨hactive, hcharged, ho.imp_of_mem fun {a b} ha hb hab => ?_⟩
  rw [hcharged a ha, hcharged b hb]
  exact Nat.add_le_add_left (leftAfter_mono naps hab) t

/-- The timers have an active list, in order of the expiry. -/
def Ready (m : Machine) : Prop := ∃ L, m.timers.Active L ∧ m.timers.InOrder L

/-- An adjustment charges each timer for the sleeps if and only if the condition holds. -/
theorem charged_iff (h : m.Ready) (hr : (Turn.sleeps naps t).run m = some m') (htotal : m.total naps ≠ 0)
    (ht : t < 2 ^ 64) (hd : ∀ i, m.timers.durationSclk i < 2 ^ 64) : m.Charged naps t m' ↔ m.Fresh naps t := by
  obtain ⟨L, hL, ho⟩ := h
  have hpath : Path m.timers.next m.timers.first L none := hL.chained.doubly.1
  constructor
  · rintro ⟨M, hM, -, hcharged, -⟩ N hN i hi
    obtain rfl : M = L := Path.unique hM hpath
    obtain rfl : N = M := Path.unique hN hM
    have hnew := (run_sleeps_adjusted hL hr htotal).2 i hi
    exact (newTime_eq_iff ht (hd i)).mp (hnew.symm.trans (hcharged i hi))
  · intro hfresh
    obtain ⟨hactive, hcharged, horder⟩ := hfresh.charges hL ho hr htotal
    exact ⟨L, hpath, hactive.chained.doubly.1, hcharged, horder⟩

end Machine

/-- The condition on what is done: sleeps that are adjusted meet their own. -/
def Turn.Fresh (m : Machine) : Turn → Prop
  | .sleeps naps t => m.total naps ≠ 0 → m.Fresh naps t
  | .awake _ => True

/-- A step that meets the condition. -/
def Turn.FreshStep (m m' : Machine) : Prop := ∃ x : Turn, x.Fresh m ∧ x.run m = some m'

namespace Machine

variable {m m' m₀ : Machine} {naps : List Nap} {t : ℕ}

/-- What is done keeps the list in order, when it meets the condition. -/
theorem Ready.run {x : Turn} (h : m.Ready) (hx : x.Fresh m) (hr : x.run m = some m') : m'.Ready := by
  obtain ⟨L, hL, ho⟩ := h
  cases x with
  | sleeps naps t =>
    obtain ⟨s, -, -, hexpiry, -, hs, ⟨-, htimers⟩ | ⟨htotal, -⟩⟩ := run_sleeps hr
    · refine ⟨L, ?_, ?_⟩
      · rw [htimers]
        exact hs L hL
      · rw [htimers]
        exact ho.congr fun j _ => congrFun hexpiry j
    · obtain ⟨hactive, -, horder⟩ := Fresh.charges (hx htotal) hL ho hr htotal
      exact ⟨L, hactive, horder⟩
  | awake a =>
    obtain ⟨hawake, hr⟩ := ite_eq_iff.mp hr |>.resolve_right fun hn => by simp at hn
    -- the timers are changed by an event
    have hevent : ∀ {e : Event} {s : Timers}, (∀ adjustTick t, e ≠ .adjust adjustTick t) → e.run m.timers = some s →
        m'.timers = s → m'.Ready := fun he hs htimers => by
      obtain ⟨M, hM, hoM⟩ := hL.run he hs
      rw [← htimers] at hM hoM
      exact ⟨M, hM, hoM ho⟩
    have hsame : m'.timers = m.timers → m'.Ready := fun htimers => ⟨L, by rwa [htimers], by rwa [htimers]⟩
    cases a with
    | call e =>
      obtain ⟨he, hr⟩ := ite_eq_iff.mp hr |>.resolve_right fun hn => by simp at hn
      obtain ⟨s, hs, rfl⟩ := Option.map_eq_some_iff.mp hr
      obtain ⟨on, c, a, hfollow⟩ := m.follow_eq s
      exact hevent (by rintro _ _ rfl; cases he) hs (by rw [hfollow])
    | process e =>
      obtain ⟨⟨-, he⟩, hr⟩ := ite_eq_iff.mp hr |>.resolve_right fun hn => by simp at hn
      obtain ⟨s, hs, rfl⟩ := Option.map_eq_some_iff.mp hr
      obtain ⟨on, c, a, hfollow⟩ := m.follow_eq s
      exact hevent (by rintro _ _ rfl; cases he) hs (by rw [hfollow])
    | interrupt =>
      obtain ⟨-, hr⟩ := ite_eq_iff.mp hr |>.resolve_right fun hn => by simp at hn
      cases hr
      exact hsame rfl
    | notifyWait =>
      obtain ⟨-, hr⟩ := ite_eq_iff.mp hr |>.resolve_right fun hn => by simp at hn
      cases hr
      exact hsame rfl
    | queueReceive =>
      rw [Machine.run] at hr
      split at hr
      · cases hr
        exact hsame rfl
      · cases hr
    | adjust t => cases hawake
    | preSleep t => cases hawake
    | postSleep => cases hawake
    | sleepAdjust d => cases hawake

/-- From any active list, while what is done meets the condition, the timers keep an active list in order; and then the
    next adjustment charges each timer for its sleeps, and for nothing else, if and only if it meets the condition. -/
theorem sleep_charged_iff (h₀ : m₀.Ready) (h : Reach Turn.FreshStep m₀ m)
    (hr : (Turn.sleeps naps t).run m = some m') (htotal : m.total naps ≠ 0) (ht : t < 2 ^ 64)
    (hd : ∀ i, m.timers.durationSclk i < 2 ^ 64) : m.Charged naps t m' ↔ m.Fresh naps t := by
  refine charged_iff (Reach.inv h h₀ ?_) hr htotal ht hd
  rintro x y ⟨z, hz, hrun⟩ hx
  exact hx.run hz hrun

theorem Ready.init (handle : ℕ → ℕ) : (Machine.init handle).Ready := by
  obtain ⟨L, hL⟩ := (Inv.init handle).active
  obtain rfl : [] = L := Path.unique rfl hL.chained.doubly.1
  exact ⟨[], hL, .nil⟩

/-- A timer of 1 s is set when a sleep of 0.25 s begins, and has 0.75 s left after it. -/
theorem sleep_charged_one : ∃ m m', Act.runAll (Machine.init fun _ => 0)
      [.call (.define 1 (some 3) (some 7)), .call (.set 1 7 38400000 false .tick 5 5)] = some m ∧
    (Turn.sleeps [⟨5, 250000⟩] 40).run m = some m' ∧ m.Charged [⟨5, 250000⟩] 40 m' := by
  refine ⟨_, _, rfl, rfl, ?_⟩
  have h₁ : Reach Turn.FreshStep (Machine.init fun _ => 0) _ :=
    .one ⟨.awake (.call (.define 1 (some 3) (some 7))), trivial, rfl⟩
  have h₂ := h₁.tail ⟨.awake (.call (.set 1 7 38400000 false .tick 5 5)), trivial, rfl⟩
  refine (sleep_charged_iff (Ready.init _) h₂ rfl (by decide) (by decide) fun i => ?_).mpr fun L hL i hi => ?_
  · change Function.update (Function.update (fun _ => 0) 0 0) 0 38400000 i < _
    obtain rfl | hne := eq_or_ne i 0
    · rw [Function.update_self]
      decide
    · rw [Function.update_of_ne hne, Function.update_of_ne hne]
      decide
  · obtain rfl : L = [0] := Path.unique hL ⟨rfl, rfl⟩
    obtain rfl := List.mem_singleton.mp hi
    exact ⟨.inl (by decide), by decide⟩

/-- A timer of 1000 us that ran for 500 us is to be over after a sleep of 500 us, and is given 500 us. A timer that was
    set after a sleep of 500 us and then sleeps for 250 us is charged for both. -/
theorem sleep_mischarged :
    (∃ m m', Act.runAll (Machine.init fun _ => 0)
        [.call (.define 1 (some 3) (some 7)), .call (.set 1 7 1000 false .usec 0 0)] = some m ∧
      (Turn.sleeps [⟨19200, 500⟩] 40).run m = some m' ∧ ¬ m.Charged [⟨19200, 500⟩] 40 m' ∧
      leftAfter [⟨19200, 500⟩] (m.timers.expiry 0) = 0 ∧ m'.timers.expiry 0 = 40 + 19200) ∧
    ∃ m m', Act.runAll (Machine.init fun _ => 0)
        [.call (.define 1 (some 3) (some 7)), .preSleep 0, .sleepAdjust 500, .notifyWait, .queueReceive, .adjust 40,
          .process (.processStart 41), .process (.processNext 0), .call (.set 1 7 1000 false .usec 100 100)] = some m ∧
      (Turn.sleeps [⟨100, 250⟩] 40).run m = some m' ∧ ¬ m.Charged [⟨100, 250⟩] 40 m' ∧
      leftAfter [⟨100, 250⟩] (m.timers.expiry 0) = 28800 ∧ m'.timers.expiry 0 = 40 + 9600 := by
  refine ⟨⟨_, _, rfl, rfl, ?_, by decide, by decide⟩, _, _, rfl, rfl, ?_, by decide, by decide⟩
  all_goals
    rintro ⟨L, hL, -, h, -⟩
    obtain rfl : L = [0] := Path.unique hL ⟨rfl, rfl⟩
    exact absurd (h 0 List.mem_cons_self) (by decide)

end Machine

end Qcc730.Timer
