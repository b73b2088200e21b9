import Qcc730.Lib.Linked

/-! The high-resolution timers.

    An internal timer is a node of a table. The ones that are set are linked to a list by their expiry, in both
    directions, and the handle of a timer is kept in a variable of its owner. The code here is `timer.c`. Times are
    64-bit counters that wrap. A call whose behaviour is not defined, or that never returns, has no result. -/

namespace Qcc730.Timer

open Lib

/-- `MAX_TIMERS` -/
def maxTimers : ℕ := 8

/-- `TIMER_INVALID_HANDLE` -/
def timerInvalidHandle : ℕ := 0xFFFFFFFF

/-- `TIMER_MAGIC` -/
def timerMagic : ℕ := 0xC3C3

/-- `TIMER_EARLY_TOL` -/
def timerEarlyTol : ℕ := 0

/-- `TIMER_MAX_EXPIRY_TICKS` -/
def timerMaxExpiryTicks : ℕ := 0xFFFFFFFFFFFFFFFF

/-- `QTMR_CNTR_FREQ_HZ` -/
def qtmrCntrFreqHz : ℕ := 38400000

/-- `timer_state_struct_type`; a node that was cleared has none of them. -/
inductive TimerState where
  | zero
  | defaultFlag
  | defFlag
  | setFlag
  | expiredFlag
  | clearedFlag
  | undefFlag
  deriving DecidableEq, Repr

/-- `time_unit_type` -/
inductive TimeUnit where
  | tick
  | usec
  | msec
  | sec
  deriving DecidableEq, Repr

/-- `timer_error_type`, as far as it is returned. -/
inductive TimerError where
  | success
  | timerModuleNotInitialized
  | invalidTimerHandle
  | invalidParameters
  | timerAlreadyInSameState
  | invalidTask
  | invalidUnit
  deriving DecidableEq, Repr

/-- Where the timer task is: outside of `timer_process_active_timers`, in its loop with the mutex, or in
    `timer_expire` without it. -/
inductive Phase where
  | idle
  | looping
  | expiring
  deriving DecidableEq, Repr

/-- `timer_msg_t`, with the task that it is for. -/
structure TimerMsg where
  task : ℕ
  handle : ℕ
  timerCb : Option ℕ
  deriving DecidableEq, Repr

/-- The module: `ptr_timer_buffer`, one function for each field, `timers` and the rest. An address is 0 for NULL. -/
structure Timers where
  externalTimer : ℕ → ℕ
  /-- the task of `task_info` -/
  taskInfo : ℕ → Option ℕ
  timerCallback : ℕ → Option ℕ
  /-- whether `list` is the active list, or NULL -/
  list : ℕ → Bool
  durationSclk : ℕ → ℕ
  expiry : ℕ → ℕ
  start : ℕ → ℕ
  next : ℕ → Option ℕ
  prev : ℕ → Option ℕ
  timerState : ℕ → TimerState
  reload : ℕ → Bool
  /-- `NODE_IS_FREE` -/
  free : ℕ → Bool
  first : Option ℕ
  last : Option ℕ
  matchValue : ℕ
  processing : Bool
  doReprogramIsr : Bool
  ticksNow : ℕ
  /-- `b_timer_initialized` -/
  initialized : Bool
  /-- the variables of the owners, by their address -/
  handle : ℕ → ℕ
  /-- the messages that were sent, the last one first -/
  sent : List TimerMsg
  phase : Phase

/-- `timer_cvt_to_tick64` -/
def timerCvtToTick64 (time : ℕ) : TimeUnit → ℕ
  | .sec => time * qtmrCntrFreqHz % 2 ^ 64
  | .msec => time * qtmrCntrFreqHz % 2 ^ 64 / 1000
  | .usec => time * qtmrCntrFreqHz % 2 ^ 64 / 1000000
  | .tick => time

/-- `timer_cvt_from_tick64` -/
def timerCvtFromTick64 (time : ℕ) : TimeUnit → ℕ
  | .sec => time / qtmrCntrFreqHz
  | .msec => time * 1000 % 2 ^ 64 / qtmrCntrFreqHz
  | .usec => time * 1000000 % 2 ^ 64 / qtmrCntrFreqHz
  | .tick => time

/-- `timer_index_to_handle` -/
def timerIndexToHandle (index : ℕ) : ℕ :=
  let i := index % 2 ^ 16
  (i ^^^ timerMagic) * 2 ^ 16 + i

/-- `timer_handle_to_index` -/
def timerHandleToIndex (handle : ℕ) : Option ℕ :=
  let check := handle / 2 ^ 16 % 2 ^ 16
  let i := handle % 2 ^ 16
  if i ^^^ timerMagic ≠ check ∨ i ≥ maxTimers then none else some i

namespace Timers

def setHandle (s : Timers) (timer v : ℕ) : Timers := { s with handle := Function.update s.handle timer v }

def setState (s : Timers) (i : ℕ) (st : TimerState) : Timers :=
  { s with timerState := Function.update s.timerState i st }

/-- The node `i` is cleared. -/
def clear (s : Timers) (i : ℕ) (free : Bool) : Timers :=
  { s with
    externalTimer := Function.update s.externalTimer i 0
    taskInfo := Function.update s.taskInfo i none
    timerCallback := Function.update s.timerCallback i none
    list := Function.update s.list i false
    durationSclk := Function.update s.durationSclk i 0
    expiry := Function.update s.expiry i 0
    start := Function.update s.start i 0
    next := Function.update s.next i none
    prev := Function.update s.prev i none
    timerState := Function.update s.timerState i .zero
    reload := Function.update s.reload i false
    free := Function.update s.free i free }

/-! ### The active list -/

/-- `hres_timer_timetick_get`, at the time `t` -/
def timetickGet (s : Timers) (t : ℕ) : Timers := { s with ticksNow := t }

/-- `timer_set_next_interrupt` -/
def timerSetNextInterrupt (s : Timers) (matchCount : ℕ) : Timers := { s with matchValue := matchCount }

/-- `timer_update_timer_interrupt`, at the time `t` -/
def timerUpdateTimerInterrupt (s : Timers) (t : ℕ) : Timers :=
  if ¬ s.doReprogramIsr ∨ s.processing then s
  else
    let s := s.timetickGet t
    match s.first with
    | none => s
    | some f => if s.expiry f = s.matchValue then s else s.timerSetNextInterrupt (max (s.expiry f) t)

/-- `timer_remove`, and whether the timer was in the list -/
def timerRemove (s : Timers) (i : ℕ) : Timers × Bool :=
  if s.list i then
    ({ s with
      next := Function.update (relink s.next (s.prev i) (s.next i)) i none
      prev := Function.update (relink s.prev (s.next i) (s.prev i)) i none
      first := restart s.first (s.prev i) (s.next i)
      last := restart s.last (s.next i) (s.prev i)
      list := Function.update s.list i false }, true)
  else (s, false)

/-- `timer_insert_between` -/
def timerInsertBetween (s : Timers) (i : ℕ) (ptr1 ptr2 : Option ℕ) : Timers :=
  { s with
    next := relink (Function.update s.next i ptr2) ptr1 (some i)
    prev := relink (Function.update s.prev i ptr1) ptr2 (some i)
    first := restart s.first ptr1 (some i)
    last := restart s.last ptr2 (some i) }

/-- The loop of `timer_insert` from `ptr` on. A walk over more nodes than the table has goes in a circle. -/
def insertPoint (s : Timers) (e : ℕ) : ℕ → Option ℕ → Option (Option ℕ)
  | _, none => some none
  | 0, some _ => none
  | fuel + 1, some p => if s.expiry p ≤ e then insertPoint s e fuel (s.next p) else some (some p)

/-- `timer_insert` -/
def timerInsert (s : Timers) (i : ℕ) : Option Timers :=
  let s := { s with list := Function.update s.list i true }
  (s.insertPoint (s.expiry i) maxTimers s.first).map fun
    | none => s.timerInsertBetween i s.last none
    | some p => s.timerInsertBetween i (s.prev p) (some p)

/-- `timer_remove_head`, for the first timer `i` -/
def timerRemoveHead (s : Timers) (i : ℕ) : Timers :=
  { s with
    first := s.next i
    prev := relink s.prev (s.next i) none
    last := restart s.last (s.next i) none
    next := Function.update s.next i none
    list := Function.update s.list i false }

/-! ### Calls of the owners -/

/-- `timer_get_client_timer` -/
def timerGetClientTimer (s : Timers) (timer : ℕ) : Option ℕ :=
  if timer = 0 then none
  else
    match timerHandleToIndex (s.handle timer) with
    | none => none
    | some i => if s.free i then none else some i

/-- `timer_get_new_client_timer`. When no node is free, an assertion fails. -/
def timerGetNewClientTimer (s : Timers) (timer : ℕ) : Option (Timers × ℕ) :=
  let s := s.setHandle timer 0
  ((List.range maxTimers).find? (s.free ·)).map fun i =>
    ((s.clear i false).setHandle timer (timerIndexToHandle i), i)

/-- `hres_timer_def`. A variable that has a timer already loses it. -/
def hresTimerDef (s : Timers) (timer : ℕ) (timerCb taskInfo : Option ℕ) : Option (Timers × TimerError) :=
  if ¬ s.initialized then some (s, .timerModuleNotInitialized)
  else if timer = 0 ∨ timerCb = none then some (s, .invalidParameters)
  else
    let s :=
      if s.handle timer ≠ timerInvalidHandle ∧ (s.timerGetClientTimer timer).any (s.externalTimer · = timer) then
        s.setHandle timer timerInvalidHandle
      else s
    (s.timerGetNewClientTimer timer).map fun (s, i) =>
      ({ s with
        externalTimer := Function.update s.externalTimer i timer
        timerCallback := Function.update s.timerCallback i timerCb
        taskInfo := Function.update s.taskInfo i taskInfo }.setState i .defFlag, .success)

/-- `timer_prep_for_set`. Where it returns early, its caller goes on with a pointer that has no value. -/
def timerPrepForSet (s : Timers) (timer : ℕ) : Option (Timers × ℕ) :=
  match s.timerGetClientTimer timer with
  | none => none
  | some i => if s.externalTimer i ≠ timer then none else some ((s.timerRemove i).1.setState i .setFlag, i)

/-- `timer_set`, called by `task` at the time `t`, with the interrupt updated at `t'` -/
def timerSet (s : Timers) (timer task time : ℕ) (unit : TimeUnit) (reload : Bool) (t t' : ℕ) :
    Option (Timers × TimerError) :=
  if timer = 0 then some (s, .invalidParameters)
  else
    match s.timerPrepForSet timer with
    | none => none
    | some (s, i) =>
      match s.taskInfo i with
      | none => none
      | some owner =>
        if owner ≠ task then some (s, .invalidTask)
        else
          let d := timerCvtToTick64 time unit
          let s := s.timetickGet t
          let s := { s with
            durationSclk := Function.update s.durationSclk i d
            start := Function.update s.start i t
            expiry := Function.update s.expiry i ((t + d) % 2 ^ 64)
            reload := Function.update s.reload i reload }
          (s.timerInsert i).map fun s => (s.timerUpdateTimerInterrupt t', .success)

/-- `hres_timer_set_64`. What `timer_set` reports is not passed on. -/
def hresTimerSet64 (s : Timers) (timer task time : ℕ) (reload : Bool) (unit : TimeUnit) (t t' : ℕ) :
    Option (Timers × TimerError) :=
  if unit = .sec then some (s, .invalidUnit)
  else (s.timerSet timer task time unit reload t t').map fun (s, _) => (s, .success)

/-- `hres_timer_stop` -/
def hresTimerStop (s : Timers) (timer t : ℕ) : Timers × TimerError :=
  match s.timerGetClientTimer timer with
  | none => (s, .timerAlreadyInSameState)
  | some i =>
    match s.timerRemove i with
    | (s, true) => ((s.setState i .clearedFlag).timerUpdateTimerInterrupt t, .success)
    | (s, false) => (s, .invalidTimerHandle)

/-- `hres_timer_undef` -/
def hresTimerUndef (s : Timers) (timer t : ℕ) : Timers × TimerError :=
  match s.timerGetClientTimer timer with
  | none => (s, .timerAlreadyInSameState)
  | some i =>
    let s := if s.list i then (s.timerRemove i).1.timerUpdateTimerInterrupt t else s
    ((s.clear i true).setHandle timer timerInvalidHandle, .success)

/-! ### The timer task -/

/-- The new expiry of a timer that is reloaded at the time `now`. No result for a division by 0. -/
def reloadExpiry (now expiry durationSclk : ℕ) : Option ℕ :=
  let newExpiry := (expiry + durationSclk) % 2 ^ 64
  let newExpiry :=
    if newExpiry ≤ now then
      if durationSclk = 0 then none
      else
        let minAdvance := now - expiry
        some ((expiry + (minAdvance + (durationSclk - minAdvance % durationSclk)) % 2 ^ 64) % 2 ^ 64)
    else some newExpiry
  newExpiry.map fun e => if e > expiry then e else (now + (2 ^ 64 - 1)) % 2 ^ 64

/-- `timer_determine_timer_expiry` -/
def timerDetermineTimerExpiry (s : Timers) (i : ℕ) : Timers × Bool :=
  if s.timerState i = .setFlag then (s.setState i .expiredFlag, true) else (s, false)

/-- `timer_expire`, up to where the mutex is taken again -/
def timerExpire (s : Timers) (i : ℕ) : Timers :=
  { s with
    phase := .expiring
    sent := match s.taskInfo i with
      | none => s.sent
      | some task => ⟨task, s.handle (s.externalTimer i), s.timerCallback i⟩ :: s.sent }

/-- One pass of the loop of `timer_process_active_timers` for the first timer `i`, up to where the mutex is given
    away. If it is not, the clock is read at `t`. -/
def processTimer (s : Timers) (i t : ℕ) : Option Timers :=
  let s := s.timerRemoveHead i
  let r :=
    if s.reload i then
      match reloadExpiry s.ticksNow (s.expiry i) (s.durationSclk i) with
      | none => none
      | some e =>
        let s := { s with
          expiry := Function.update s.expiry i e
          start := Function.update s.start i s.ticksNow }
        (s.timerInsert i).map fun s =>
          let (s, expires) := s.timerDetermineTimerExpiry i
          (s.setState i .setFlag, expires)
    else some (s.timerDetermineTimerExpiry i)
  r.map fun (s, expires) => if expires then s.timerExpire i else s.timetickGet t

/-- The loop goes on. -/
def expires (s : Timers) (i : ℕ) : Prop := s.expiry i ≤ (s.ticksNow + timerEarlyTol) % 2 ^ 64

instance (s : Timers) (i : ℕ) : Decidable (s.expires i) := inferInstanceAs (Decidable (_ ≤ _))

/-- The end of `timer_process_active_timers`. -/
def processEnd (s : Timers) : Timers :=
  let s := match s.first with
    | none => s
    | some f => s.timerSetNextInterrupt (s.expiry f)
  { s with processing := false, phase := .idle }

/-- The expiry that `timer_adjust_active_list` gives to a timer. -/
def newTime (now adjustTick durationSclk : ℕ) : ℕ :=
  if durationSclk > adjustTick then (now + (durationSclk - adjustTick)) % 2 ^ 64 else now

/-- The loop of `timer_adjust_active_list` from `p` on. -/
def adjustFrom (adjustTick : ℕ) : ℕ → Timers → Option ℕ → Option Timers
  | _, s, none => some s
  | 0, _, some _ => none
  | fuel + 1, s, some p =>
    adjustFrom adjustTick fuel
      { s with expiry := Function.update s.expiry p (newTime s.ticksNow adjustTick (s.durationSclk p)) } (s.next p)

/-- `timer_adjust_active_list`, at the time `t` -/
def timerAdjustActiveList (s : Timers) (adjustTick t : ℕ) : Option Timers :=
  let s := s.timetickGet t
  (adjustFrom adjustTick maxTimers s s.first).map fun s => { s with doReprogramIsr := true }

/-- `hres_timer_pre_sleep`, at the time `t`: the time to the first expiry, in microseconds -/
def hresTimerPreSleep (s : Timers) (t : ℕ) : Timers × ℕ :=
  let s := s.timetickGet t
  let futureExpiry := match s.first with
    | none => timerMaxExpiryTicks
    | some f => s.expiry f
  if futureExpiry < t then (s, 0)
  else ({ s with doReprogramIsr := false }, timerCvtFromTick64 (futureExpiry - t) .usec)

/-- `hres_timer_init`; the variables may hold anything. -/
def init (handle : ℕ → ℕ) : Timers where
  externalTimer := fun _ => 0
  taskInfo := fun _ => none
  timerCallback := fun _ => none
  list := fun _ => false
  durationSclk := fun _ => 0
  expiry := fun _ => 0
  start := fun _ => 0
  next := fun _ => none
  prev := fun _ => none
  timerState := fun _ => .zero
  reload := fun _ => false
  free := fun _ => true
  first := none
  last := none
  matchValue := 0
  processing := false
  doReprogramIsr := true
  ticksNow := 0
  initialized := true
  handle := handle
  sent := []
  phase := .idle

end Timers

/-- What happens. Owners call when the mutex is free; the timer task goes from one point where it gives or takes the
    mutex to the next. The clock may be read by anyone. -/
inductive Event where
  | define (timer : ℕ) (timerCb taskInfo : Option ℕ)
  | set (timer task time : ℕ) (reload : Bool) (unit : TimeUnit) (t t' : ℕ)
  | stop (timer t : ℕ)
  | undef (timer t : ℕ)
  | adjust (adjustTick t : ℕ)
  | processStart (t : ℕ)
  | processNext (t : ℕ)
  | resume (t : ℕ)
  | tick (t : ℕ)

/-- The next state, if the event can happen. -/
def Event.run (s : Timers) : Event → Option Timers
  | .define timer timerCb taskInfo =>
    if s.phase = .looping then none else (s.hresTimerDef timer timerCb taskInfo).map Prod.fst
  | .set timer task time reload unit t t' =>
    if s.phase = .looping then none else (s.hresTimerSet64 timer task time reload unit t t').map Prod.fst
  | .stop timer t => if s.phase = .looping then none else some (s.hresTimerStop timer t).1
  | .undef timer t => if s.phase = .looping then none else some (s.hresTimerUndef timer t).1
  | .adjust adjustTick t => if s.phase = .idle then s.timerAdjustActiveList adjustTick t else none
  | .processStart t =>
    if s.phase = .idle then some { s.timetickGet t with processing := true, phase := .looping } else none
  | .processNext t =>
    if s.phase = .looping then
      match s.first with
      | none => some s.processEnd
      | some i => if s.expires i then s.processTimer i t else some s.processEnd
    else none
  | .resume t => if s.phase = .expiring then some { s.timetickGet t with phase := .looping } else none
  | .tick t => some (s.timetickGet t)

end Qcc730.Timer
