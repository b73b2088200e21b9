import Qcc730.Lib.Linked

/-! The sleep list of the power manager.

    Everyone who wants the SoC to sleep has an entry in a table, with the time it may sleep. The entries that are
    registered are linked to a list by their time, and the sleep timer is set for the head. The code here is
    `nt_socpm_sleep.c` with `SUPPORT_SLEEP_LIST_IMPROVEMENTS`. A call that never returns has no result. -/

namespace Qcc730.Sleep

/-- `_SOCPM_SLP_LST_SZ` -/
def socpmSlpLstSz : ℕ := 10

/-- `sleep_mode` -/
inductive SleepMode where
  | clkGtdSleep
  | mcuSleep
  | standby
  | active
  | lightsleep
  | infDeepsleep
  deriving DecidableEq, Repr

/-- `soc_wkup_reason` -/
inductive WkupReason where
  | complete
  | abort
  deriving DecidableEq, Repr

/-- `nt_socpm_sleep_t`. Of the callback for a full wake-up it matters whether it deletes its own entry; the one for
    entering sleep does not change the list. -/
structure SleepInfo where
  slpTime : ℕ
  slpMode : SleepMode
  wkupCbDeletes : WkupReason → Bool
  minCb : ℕ → ℕ

/-- The module: `_socpm_slp_lst`, one function for each field, and the rest. An index is `none` for -1. -/
structure Soc where
  slpTime : ℕ → ℕ
  startTimeUs : ℕ → ℕ
  slpMode : ℕ → SleepMode
  listNo : ℕ → ℕ
  wkupCbDeletes : ℕ → WkupReason → Bool
  minCb : ℕ → ℕ → ℕ
  next : ℕ → Option ℕ
  /-- `_socpm_slp_lst_head` -/
  slpLstHead : Option ℕ
  /-- `_socpm_last_slp_count` -/
  lastSlpCount : Option ℕ
  /-- `_socpm_slp_mode` -/
  socpmSlpMode : SleepMode
  /-- `_socpm_slp_time_supp_min_ms` -/
  suppMinMs : ℕ
  processRoutine : Bool
  inWarmBoot : Bool
  /-- `_socpm_mcu_sleep_wake` -/
  mcuSleepWake : Bool
  /-- `_socpm_slp_list_idx_rtos` -/
  slpListIdxRtos : Option ℕ
  /-- `_socpm_slp_exit`: the sleep timer has expired -/
  slpExit : Bool
  /-- what the sleep timer was set for -/
  slpTmr : Option ℕ
  /-- `hres_timer_curr_time_us` -/
  now : ℕ
  /-- the entries that are registered and not deleted -/
  registered : ℕ → Bool
  /-- the wake-up callbacks that were called, the last one first -/
  woken : List (ℕ × WkupReason)

/-- The clock stands between two readings. -/
def still : ℕ → ℕ := fun _ => 0

@[simp] theorem still_zero : still 0 = 0 := rfl

theorem still_succ : (fun n => still (n + 1)) = still := rfl

/-- `_socpm_get_sleep_slop_adjusted_sleep_time`; the offset depends on the beacon interval. -/
def slopAdjusted (offset t : ℕ) : ℕ := if t > offset then t - offset else t

namespace Soc

def setNext (s : Soc) (i : ℕ) (p : Option ℕ) : Soc := { s with next := Function.update s.next i p }

def setSlpTime (s : Soc) (i t : ℕ) : Soc := { s with slpTime := Function.update s.slpTime i t }

def setStart (s : Soc) (i : ℕ) : Soc := { s with startTimeUs := Function.update s.startTimeUs i s.now }

/-- The clock shows `t`. -/
def setNow (s : Soc) (t : ℕ) : Soc := { s with now := t }

/-- `_socpm_slptmr_off` -/
def slptmrOff (s : Soc) : Soc := { s with slpTmr := none }

/-- `nt_socpm_slp_tmr_set` -/
def slpTmrSet (s : Soc) (t : ℕ) : Soc :=
  { s with slpTmr := some t, socpmSlpMode := if t < s.suppMinMs * 1000 then .clkGtdSleep else s.socpmSlpMode }

/-- `_socpm_list_search`: the next entry becomes the head. -/
def listSearch (s : Soc) (h : ℕ) : Soc :=
  match s.next h with
  | none => { s with slpLstHead := none }
  | some n => { s.setNext h none with slpLstHead := some n }

/-- `nt_socpm_sleep_lst_delete`. The loop looks at the entry behind the head again and again. -/
def lstDelete (s : Soc) (i : ℕ) : Option Soc :=
  if i ≥ socpmSlpLstSz then some s
  else
    let s := { s.slptmrOff with registered := Function.update s.registered i false }
    match s.slpLstHead with
    | none => some s
    | some h =>
      let s := s.setSlpTime i 0
      if h = i then
        let s := s.listSearch h
        match s.slpLstHead with
        | none => some s
        | some n => some (if s.slpTime n > 0 then s.slpTmrSet (s.slpTime n) else s)
      else
        match s.next h with
        | none => some s
        | some n => if n = i then some ((s.setNext h (s.next i)).setNext i none) else none

/-- The wake-up callback of the entry `i`. -/
def wkupCb (s : Soc) (i : ℕ) (r : WkupReason) : Option Soc :=
  let s := { s with woken := (i, r) :: s.woken }
  if s.wkupCbDeletes i r then s.lstDelete i else some s

/-- The body of the loop of `nt_socpm_sleep_lst_update` for the entry `i`, and whether it was woken. The time that has
    passed is taken up to `t`; for the new start time the clock is read again, when it has gone on by `d`. -/
def updateEntry (s : Soc) (t d : ℕ) (serve : Bool) (i : ℕ) : Option (Soc × Bool) :=
  let delta := t - s.startTimeUs i
  if delta < s.slpTime i ∧ s.slpTime i > 0 then
    some (((s.setNow (s.now + d)).setSlpTime i (s.slpTime i - delta)).setStart i, false)
  else if s.slpLstHead ≠ some i ∧ serve then
    if s.inWarmBoot ∧ s.minCb i ((delta - s.slpTime i) % 2 ^ 32) > 0 then some (s, false)
    else ((s.setSlpTime i 0).wkupCb i .complete).map fun s => (s, true)
  else some (s, false)

/-- The loop of `nt_socpm_sleep_lst_update` from the entry `p` on. It also ends at an entry that started after `t`, so
    that a walk in a circle returns when it comes to an entry that it started anew itself, if the clock went on. -/
def updateFrom (serve : Bool) (t : ℕ) : ℕ → (ℕ → ℕ) → Soc → Option ℕ → Bool → Option (Soc × Bool)
  | _, _, s, none, other => some (s, other)
  | 0, _, _, some _, _ => none
  | fuel + 1, d, s, some i, other =>
    if t < s.startTimeUs i then some (s, other)
    else
      match s.updateEntry t (d 0) serve i with
      | none => none
      | some (s, woken) => updateFrom serve t fuel (fun n => d (n + 1)) s (s.next i) (other || woken)

/-- `nt_socpm_sleep_lst_update`; before its `n`-th look at the clock this has gone on by `d n`. A walk of twice the size
    of the table has gone round a circle. -/
def lstUpdate (s : Soc) (d : ℕ → ℕ) (serve : Bool) : Option (Soc × Bool) :=
  let s := s.setNow (s.now + d 0)
  updateFrom serve s.now (2 * socpmSlpLstSz) (fun n => d (n + 1)) s s.slpLstHead false

/-- The loop of `nt_socpm_sleep_lst_reorder`: the entry behind which `i` belongs, and whether one follows. -/
def place (s : Soc) (i : ℕ) : ℕ → ℕ → Option (ℕ × Bool)
  | 0, _ => none
  | fuel + 1, p =>
    match s.next p with
    | none => some (p, false)
    | some q => if s.slpTime q > s.slpTime i then some (p, true) else place s i fuel q

/-- The end of `nt_socpm_sleep_lst_reorder`. -/
def arm (s : Soc) : Soc :=
  match s.slpLstHead with
  | none => s
  | some h =>
    let s := { s with socpmSlpMode := s.slpMode h }
    if ¬ s.processRoutine ∧ s.slpTime h > 0 then s.slpTmrSet (s.slpTime h) else s

/-- `nt_socpm_sleep_lst_reorder`. An entry other than the head is not unlinked first. A list of one entry is a loop
    that ends at once. -/
def lstReorder (s : Soc) (i : ℕ) : Option Soc :=
  let s := if s.slpLstHead = some i then s.listSearch i else s
  match s.slpLstHead with
  | none => some { s with slpLstHead := some i }.arm
  | some h =>
    if (s.slpTime h < 1 ∧ h ≠ i) ∨ (s.slpTime h > s.slpTime i ∧ s.slpTime i > 0) then
      let s := if s.next h = some i then s.setNext h none else s
      some { s.setNext i (some h) with slpLstHead := some i }.arm
    else
      match s.place i socpmSlpLstSz h with
      | none => none
      | some (p, true) => some ((s.setNext p (some i)).setNext i (s.next p))
      | some (p, false) => some (if s.slpTime i > 0 ∧ p ≠ i then s.setNext p (some i) else s).arm

/-- The entry `i` gets its data. -/
def setInfo (s : Soc) (info : SleepInfo) (i offset : ℕ) : Soc :=
  { s with
    slpTime := Function.update s.slpTime i (slopAdjusted offset info.slpTime)
    slpMode := Function.update s.slpMode i info.slpMode
    wkupCbDeletes := Function.update s.wkupCbDeletes i info.wkupCbDeletes
    minCb := Function.update s.minCb i info.minCb
    listNo := Function.update s.listNo i i
    startTimeUs := Function.update s.startTimeUs i s.now
    registered := Function.update s.registered i true }

/-- What both branches of `nt_socpm_sleep_register` do with the entry `i`. -/
def enter (s : Soc) (info : SleepInfo) (i offset : ℕ) (d : ℕ → ℕ) : Option Soc :=
  let s := (s.setNow (s.now + d 0)).setInfo info i offset
  match s.slpLstHead with
  | none => s.lstReorder i
  | some _ =>
    match s.lstUpdate (fun n => d (n + 1)) false with
    | none => none
    | some (s, _) => s.lstReorder i

/-- The update of an existing entry. -/
def update (s : Soc) (info : Option SleepInfo) (i offset : ℕ) (d : ℕ → ℕ) : Option (Soc × Option ℕ) :=
  match info with
  | none => some (s, none)
  | some info => if i < socpmSlpLstSz then (s.enter info i offset d).map fun s => (s, some i) else some (s, none)

/-- `nt_socpm_sleep_register`. A new entry is treated as the update of the one behind the last, unless it is the
    first. The count goes up even if there is no room; no result once it is beyond the table. -/
def sleepRegister (s : Soc) (info : Option SleepInfo) (listIdx : Option ℕ) (offset : ℕ) (d : ℕ → ℕ) :
    Option (Soc × Option ℕ) :=
  match listIdx, s.lastSlpCount with
  | some i, _ => s.update info i offset d
  | none, some c =>
    if c < socpmSlpLstSz then
      (s.update info (s.listNo c + 1) offset d).map fun (s, i) => ({ s with lastSlpCount := some (c + 1) }, i)
    else none
  | none, none =>
    match info with
    | none => some (s, none)
    | some info => ({ s.setNext 0 none with lastSlpCount := some 0 }.enter info 0 offset d).map fun s => (s, some 0)

/-- `nt_socpm_sleep_deregister` -/
def sleepDeregister (s : Soc) (i : ℕ) : Option Soc := s.slptmrOff.lstDelete i

end Soc

end Qcc730.Sleep
