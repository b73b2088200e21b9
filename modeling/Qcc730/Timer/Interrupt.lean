import Qcc730.Timer.Order

/-! The interrupt of the timers.

    One comparator of the hardware interrupts when the counter reaches its value. The interrupt turns it off and
    notifies the timer task, which processes the timers and sets the comparator for the next one. A sleep tells the
    timer task in one of two ways that it is over. The driver in use turns the comparator on only where it is written. -/

namespace Qcc730.Timer

open Lib

/-- `TIMER_TASK_QUEUE_LEN` -/
def timerTaskQueueLen : ℕ := 5

/-- Where `timer_task` is. -/
inductive TaskAt where
  /-- in `xTaskNotifyWait` -/
  | waiting
  /-- before it reads its queue; `isr` if the expiry event was in the same notification -/
  | receiving (isr : Bool)
  /-- before `timer_adjust_active_list` -/
  | adjusting
  /-- before or in `timer_process_active_timers` -/
  | processing
  deriving DecidableEq, Repr

/-- The timers, with the comparator and the timer task. -/
structure Machine where
  timers : Timers
  /-- the comparator is on -/
  enabled : Bool
  /-- `comp->cval` -/
  cval : ℕ
  /-- when the comparator was written -/
  setAt : ℕ
  /-- the pending event `TIMER_EVENT_EXPIRY_FROM_ISR` -/
  expiryFromIsr : Bool
  /-- the pending event `TIMER_EVENT_PM_WAKEUP` -/
  pmWakeup : Bool
  /-- `timer_task_queue` -/
  queue : List ℕ
  /-- the variable of `timer_task`, which is never set back -/
  sleepDuration : ℕ
  task : TaskAt
  /-- a sleep was begun and is not over -/
  sleeping : Bool

/-- What happens: a call of an owner or a reading of the clock, an interrupt, a step of the timer task, or a part of a
    sleep. -/
inductive Act where
  | call (e : Event)
  | interrupt
  | notifyWait
  | queueReceive
  | adjust (t : ℕ)
  | process (e : Event)
  | preSleep (t : ℕ)
  | postSleep
  | sleepAdjust (sleepDuration : ℕ)

/-- An event that the timer task does not take part in. -/
def Event.ofOwner : Event → Bool
  | .define .. | .set .. | .stop .. | .undef .. | .tick _ => true
  | .adjust .. | .processStart _ | .processNext _ | .resume _ => false

namespace Machine

/-- `hres_timer_init`, with the timer task in its first wait -/
def init (handle : ℕ → ℕ) : Machine where
  timers := Timers.init handle
  enabled := false
  cval := 0
  setAt := 0
  expiryFromIsr := false
  pmWakeup := false
  queue := []
  sleepDuration := 0
  task := .waiting
  sleeping := false

/-- The timers change to `s`. `timer_set_next_interrupt` writes a value that differs from the one before, and only
    then: the comparator takes it and is turned on by `qtmr_frame_comp_start`. -/
def follow (m : Machine) (s : Timers) : Machine :=
  if s.matchValue = m.timers.matchValue then { m with timers := s }
  else { m with timers := s, enabled := true, cval := s.matchValue, setAt := s.ticksNow }

/-- What `timer_task` has slept in all once it has read its queue. -/
def slept (m : Machine) : ℕ := (m.sleepDuration + m.queue.sum) % 2 ^ 64

/-- The next state, if the act can happen. -/
def run (m : Machine) : Act → Option Machine
  | .call e => if e.ofOwner then (e.run m.timers).map m.follow else none
  | .interrupt => if m.enabled then some { m with enabled := false, expiryFromIsr := true } else none
  | .notifyWait =>
    if m.task = .waiting ∧ (m.expiryFromIsr ∨ m.pmWakeup) then
      some { m with
        expiryFromIsr := false
        pmWakeup := false
        task := if m.pmWakeup then .receiving m.expiryFromIsr else .processing }
    else none
  | .queueReceive =>
    match m.task with
    | .receiving isr => some { m with
        queue := []
        sleepDuration := m.slept
        task := if m.slept > 0 then .adjusting else if isr then .processing else .waiting }
    | _ => none
  | .adjust t =>
    if m.task = .adjusting then
      ((Event.adjust m.sleepDuration t).run m.timers).map fun s => { m.follow s with task := .processing }
    else none
  | .process e =>
    if m.task = .processing ∧ e.ofProcess then
      (e.run m.timers).map fun s =>
        { m.follow s with task := if s.phase = .idle then .waiting else .processing }
    else none
  | .preSleep t =>
    if m.sleeping then none else some { m with timers := (m.timers.hresTimerPreSleep t).1, sleeping := true }
  | .postSleep => if m.sleeping then some { m with expiryFromIsr := true, sleeping := false } else none
  | .sleepAdjust sleepDuration =>
    if m.sleeping then
      some { m with
        queue := if m.queue.length < timerTaskQueueLen then m.queue ++ [timerCvtToTick64 sleepDuration .usec] else m.queue
        pmWakeup := true
        sleeping := false }
    else none

end Machine

/-! ### What the interrupt depends on -/

/-- The part of the timers that the interrupt depends on: the expiry of the first timer, and what is looked at before
    the comparator is written. -/
structure View where
  head : Option ℕ
  matchValue : ℕ
  ticksNow : ℕ
  doReprogramIsr : Bool
  processing : Bool
  phase : Phase

/-- `timer_update_timer_interrupt`, seen from there -/
def View.update (v : View) (t : ℕ) : View :=
  if ¬ v.doReprogramIsr ∨ v.processing then v
  else
    match v.head with
    | none => { v with ticksNow := t }
    | some e => if e = v.matchValue then { v with ticksNow := t } else { v with ticksNow := t, matchValue := max e t }

namespace Timers

variable {s s' : Timers} {L : List ℕ} {i : ℕ}

def view (s : Timers) : View where
  head := s.first.map s.expiry
  matchValue := s.matchValue
  ticksNow := s.ticksNow
  doReprogramIsr := s.doReprogramIsr
  processing := s.processing
  phase := s.phase

/-- The expiry of the first timer when the timer `i` is out of the list. -/
def headWithout (s : Timers) (i : ℕ) : Option ℕ := (if s.first = some i then s.next i else s.first).map s.expiry

theorem timerUpdateTimerInterrupt_view (s : Timers) (t : ℕ) : (s.timerUpdateTimerInterrupt t).view = s.view.update t := by
  rw [timerUpdateTimerInterrupt, View.update]
  by_cases hskip : ¬ s.doReprogramIsr ∨ s.processing
  · rw [if_pos hskip, if_pos (show ¬ s.view.doReprogramIsr ∨ s.view.processing from hskip)]
  · rw [if_neg hskip, if_neg (show ¬ (¬ s.view.doReprogramIsr ∨ s.view.processing) from hskip)]
    cases hfirst : s.first with
    | none => simp [timetickGet, view, hfirst]
    | some f =>
      by_cases hmatch : s.expiry f = s.matchValue <;>
        simp [timetickGet, timerSetNextInterrupt, view, hfirst, hmatch]

theorem hresTimerPreSleep_eq (s : Timers) (t : ℕ) :
    ∃ flag, (s.hresTimerPreSleep t).1 = { s with ticksNow := t, doReprogramIsr := flag } := by
  cases hfirst : s.first with
  | none =>
    simp only [hresTimerPreSleep, timetickGet, hfirst]
    split
    · exact ⟨_, rfl⟩
    · exact ⟨_, rfl⟩
  | some f =>
    simp only [hresTimerPreSleep, timetickGet, hfirst]
    split
    · exact ⟨_, rfl⟩
    · exact ⟨_, rfl⟩

/-- The active list `L`, in whatever order, of nodes that are in use. -/
structure Active (s : Timers) (L : List ℕ) : Prop where
  chained : s.Chained L
  used : ∀ i ∈ L, s.free i = false
  bound : ∀ i, s.free i = false → i < maxTimers

/-- The timers of `L` are in order of the expiry. -/
def InOrder (s : Timers) (L : List ℕ) : Prop := L.Pairwise fun a b => s.expiry a ≤ s.expiry b

/-- `s'` has an active list, in order if the list `L` of `s` is. -/
def Keeps (s : Timers) (L : List ℕ) (s' : Timers) : Prop := ∃ M, s'.Active M ∧ (s.InOrder L → s'.InOrder M)

theorem Keeps.active (h : s.Keeps L s') : ∃ M, s'.Active M := h.imp fun _ hM => hM.1

theorem InOrder.congr (h : s.InOrder L) (he : ∀ j ∈ L, s'.expiry j = s.expiry j) : s'.InOrder L :=
  h.imp_of_mem fun {a b} ha hb hab => by rwa [he a ha, he b hb]

theorem InOrder.erase (h : s.InOrder L) : s.InOrder (L.erase i) := h.sublist List.erase_sublist

namespace Active

theorem linked (h : s.Active L) (ho : s.InOrder L) : s.Linked L := ⟨h.chained.doubly, ho, h.chained.listed⟩

theorem length_le (h : s.Active L) : L.length ≤ maxTimers := by
  have := (h.chained.nodup.subperm fun i hi => List.mem_range.mpr (h.bound i (h.used i hi))).length_le
  rwa [List.length_range] at this

theorem congr (h : s.Active L) (hn : s'.next = s.next) (hp : s'.prev = s.prev) (hf : s'.first = s.first)
    (hl : s'.last = s.last) (hlist : s'.list = s.list) (hfree : s'.free = s.free) : s'.Active L where
  chained := by
    refine ⟨?_, hlist ▸ h.chained.listed⟩
    rw [hn, hp, hf, hl]
    exact h.chained.doubly
  used := hfree ▸ h.used
  bound := hfree ▸ h.bound

theorem timerUpdateTimerInterrupt (h : s.Active L) (t : ℕ) : (s.timerUpdateTimerInterrupt t).Active L := by
  obtain ⟨m, now, heq⟩ := s.timerUpdateTimerInterrupt_eq t
  rw [heq]
  exact h.congr rfl rfl rfl rfl rfl rfl

/-- The interrupt is brought up to date at last. -/
theorem keeps_update (h : s.Keeps L s') (t : ℕ) : s.Keeps L (s'.timerUpdateTimerInterrupt t) := by
  obtain ⟨M, hM, ho⟩ := h
  refine ⟨M, hM.timerUpdateTimerInterrupt t, fun hs => ?_⟩
  obtain ⟨m, now, heq⟩ := s'.timerUpdateTimerInterrupt_eq t
  rw [heq]
  exact ho hs

theorem headWithout_eq (h : s.Active L) : s.headWithout i = ((L.erase i).head?).map s.expiry := by
  rw [headWithout, h.chained.doubly.first_eq]
  cases L with
  | nil => rfl
  | cons a L =>
    obtain rfl | hne := eq_or_ne a i
    · rw [List.head?_cons, if_pos rfl, List.erase_cons_head, Doubly.next_eq (A := []) h.chained.doubly]
    · have hne' : (a :: L).head? ≠ some i := fun heq => hne (Option.some.inj heq)
      rw [if_neg hne', List.erase_cons_tail (by simpa using hne), List.head?_cons, List.head?_cons]

theorem timerRemove (h : s.Active L) : (s.timerRemove i).1.Active (L.erase i) ∧ s.Relinked (s.timerRemove i).1 ∧
    (s.timerRemove i).1.view = { s.view with head := s.headWithout i } := by
  obtain ⟨hc, ⟨next, prev, first, last, list, heq⟩, -⟩ := h.chained.timerRemove (i := i)
  refine ⟨⟨hc, fun j hj => ?_, ?_⟩, ⟨next, prev, first, last, list, heq⟩, ?_⟩
  · rw [heq]
    exact h.used j (List.mem_of_mem_erase hj)
  · rw [heq]
    exact h.bound
  · rw [h.headWithout_eq, ← hc.doubly.first_eq, heq]
    rfl

/-- A timer that is not in the list is put in. It is the first one if it is earlier than the one before. -/
theorem timerInsert (h : s.Active L) (hi : i ∉ L) (hused : s.free i = false) (hr : s.timerInsert i = some s') :
    s.Keeps L s' ∧ s.Relinked s' ∧
      s'.view = { s.view with head := some (s.view.head.elim (s.expiry i) (min (s.expiry i))) } := by
  obtain ⟨x, A, B, hs', ⟨next, prev, first, last, list, rfl⟩, rfl, hc, hA, hB⟩ := h.chained.timerInsert hi h.length_le
  cases hr.symm.trans hs'
  have hin : ∀ j, j ∈ A ++ i :: B → j = i ∨ j ∈ A ++ B := fun j hj => by simpa [or_left_comm] using hj
  refine ⟨⟨A ++ i :: B, ⟨hc, fun j hj => ?_, h.bound⟩, fun ho => ?_⟩, ⟨_, _, _, _, _, rfl⟩, ?_⟩
  · obtain rfl | hj := hin j hj
    · exact hused
    · exact h.used j hj
  · exact pairwise_insert ho hA hB
  · have hfirst : first = (A ++ i :: B).head? := hc.doubly.first_eq
    rw [view, view, h.chained.doubly.first_eq, hfirst]
    cases A with
    | nil =>
      cases B with
      | nil => rfl
      | cons b B =>
        have hlt : s.expiry i < s.expiry b := hB b rfl
        simp [min_eq_left hlt.le]
    | cons a A =>
      have hle : s.expiry a ≤ s.expiry i := hA a List.mem_cons_self
      simp [min_eq_right hle]

/-- The first timer is not the one that is cleared. -/
theorem view_clear (h : s.Active L) (hi : i ∉ L) (free : Bool) : (s.clear i free).view = s.view := by
  have hhead : s.first.map (Function.update s.expiry i 0) = s.first.map s.expiry := by
    rw [h.chained.doubly.first_eq]
    refine Option.map_congr fun f hf => Function.update_of_ne ?_ ..
    exact ne_of_mem_of_not_mem (List.mem_of_mem_head? hf) hi
  simp only [view, Timers.clear, hhead]

/-! ### Calls of the owners -/

theorem hresTimerDef {timer : ℕ} {timerCb taskInfo : Option ℕ} {e : TimerError} (h : s.Active L)
    (hr : s.hresTimerDef timer timerCb taskInfo = some (s', e)) :
    s'.Active L ∧ (s.InOrder L → s'.InOrder L) ∧ s'.view = s.view := by
  rw [Timers.hresTimerDef] at hr
  split at hr
  · cases hr
    exact ⟨h, id, rfl⟩
  · split at hr
    · cases hr
      exact ⟨h, id, rfl⟩
    · -- the variable is written in any case
      obtain ⟨handle, hs⟩ : ∃ handle, (if s.handle timer ≠ timerInvalidHandle ∧
          (s.timerGetClientTimer timer).any (s.externalTimer · = timer) then s.setHandle timer timerInvalidHandle
          else s) = { s with handle := handle } := by
        split
        · exact ⟨_, rfl⟩
        · exact ⟨_, rfl⟩
      simp only [hs, timerGetNewClientTimer, Option.map_map, Option.map_eq_some_iff] at hr
      obtain ⟨i, hfind, hr⟩ := hr
      have hfree : s.free i = true := List.find?_some hfind
      have hi : i < maxTimers := List.mem_range.mp (List.mem_of_find?_eq_some hfind)
      have hiL : i ∉ L := fun hmem => by simp [h.used i hmem] at hfree
      cases hr
      have hc := h.chained.clear hiL false
      refine ⟨⟨⟨hc.doubly, hc.listed⟩, fun j hj => ?_, fun j hj => ?_⟩, fun ho => ?_, h.view_clear hiL false⟩
      · have hne : j ≠ i := ne_of_mem_of_not_mem hj hiL
        simpa [setState, Timers.clear, setHandle, hne] using h.used j hj
      · obtain rfl | hne := eq_or_ne j i
        · exact hi
        · exact h.bound j (by simpa [setState, Timers.clear, setHandle, hne] using hj)
      · exact ho.congr fun j hj => Function.update_of_ne (ne_of_mem_of_not_mem hj hiL) ..

theorem hresTimerStop (h : s.Active L) (timer t : ℕ) : s.Keeps L (s.hresTimerStop timer t).1 ∧
    ((s.hresTimerStop timer t).1.view = s.view ∨ ∃ i, s.timerGetClientTimer timer = some i ∧ s.list i = true ∧
      (s.hresTimerStop timer t).1.view = { s.view with head := s.headWithout i }.update t) := by
  rw [Timers.hresTimerStop]
  cases hclient : s.timerGetClientTimer timer with
  | none => exact ⟨⟨L, h, id⟩, .inl rfl⟩
  | some i =>
    obtain ⟨ha, ⟨_, _, _, _, _, heq⟩, hview⟩ := h.timerRemove (i := i)
    by_cases hlist : s.list i = true
    · have hremove : s.timerRemove i = ((s.timerRemove i).1, true) := by
        rw [Timers.timerRemove, if_pos hlist]
      simp only
      rw [hremove]
      have ha' : ((s.timerRemove i).1.setState i .clearedFlag).Active (L.erase i) := ha.congr rfl rfl rfl rfl rfl rfl
      have ho : s.InOrder L → ((s.timerRemove i).1.setState i .clearedFlag).InOrder (L.erase i) := fun ho => by
        rw [heq]
        exact ho.erase
      refine ⟨keeps_update ⟨_, ha', ho⟩ t, .inr ⟨i, rfl, hlist, ?_⟩⟩
      rw [← hview]
      exact timerUpdateTimerInterrupt_view _ t
    · have hremove : s.timerRemove i = (s, false) := by rw [Timers.timerRemove, if_neg hlist]
      simp only [hremove]
      exact ⟨⟨L, h, id⟩, .inl trivial⟩

theorem hresTimerUndef (h : s.Active L) (timer t : ℕ) : s.Keeps L (s.hresTimerUndef timer t).1 ∧
    ((s.hresTimerUndef timer t).1.view = s.view ∨ ∃ i, s.timerGetClientTimer timer = some i ∧ s.list i = true ∧
      (s.hresTimerUndef timer t).1.view = { s.view with head := s.headWithout i }.update t) := by
  -- a node out of the list is cleared, and its variable is written
  have hclear : ∀ {x : Timers} {M : List ℕ} {i : ℕ}, x.Active M → (s.InOrder L → x.InOrder M) → i ∉ M →
      s.Keeps L ((x.clear i true).setHandle timer timerInvalidHandle) ∧
        ((x.clear i true).setHandle timer timerInvalidHandle).view = x.view := fun {x M i} hx ho hi => by
    have hc := hx.chained.clear hi true
    refine ⟨⟨M, ⟨⟨hc.doubly, hc.listed⟩, fun j hj => ?_, fun j hj => ?_⟩, fun hs => ?_⟩, hx.view_clear hi true⟩
    · have hne : j ≠ i := ne_of_mem_of_not_mem hj hi
      simpa [Timers.clear, setHandle, hne] using hx.used j hj
    · have hne : j ≠ i := by
        rintro rfl
        simp [Timers.clear, setHandle] at hj
      exact hx.bound j (by simpa [Timers.clear, setHandle, hne] using hj)
    · exact (ho hs).congr fun j hj => Function.update_of_ne (ne_of_mem_of_not_mem hj hi) ..
  rw [Timers.hresTimerUndef]
  cases hclient : s.timerGetClientTimer timer with
  | none => exact ⟨⟨L, h, id⟩, .inl rfl⟩
  | some i =>
    by_cases hlist : s.list i = true
    · obtain ⟨ha, ⟨_, _, _, _, _, heq⟩, hview⟩ := h.timerRemove (i := i)
      have ho : s.InOrder L → ((s.timerRemove i).1.timerUpdateTimerInterrupt t).InOrder (L.erase i) := fun ho => by
        obtain ⟨m, now, hupdate⟩ := (s.timerRemove i).1.timerUpdateTimerInterrupt_eq t
        rw [hupdate, heq]
        exact ho.erase
      obtain ⟨hactive, hsame⟩ := hclear (ha.timerUpdateTimerInterrupt t) ho h.chained.nodup.not_mem_erase
      simp only [hlist, if_true]
      refine ⟨hactive, .inr ⟨i, rfl, hlist, ?_⟩⟩
      rw [hsame, timerUpdateTimerInterrupt_view, hview]
    · obtain ⟨hactive, hsame⟩ := hclear h id fun hmem => hlist ((h.chained.listed i).mpr hmem)
      simp only [hlist]
      exact ⟨hactive, .inl hsame⟩

/-- A timer is set; without its task, it is taken out of the list. -/
theorem timerSet {timer task time t t' : ℕ} {unit : TimeUnit} {reload : Bool} {e : TimerError} (h : s.Active L)
    (hr : s.timerSet timer task time unit reload t t' = some (s', e)) : s.Keeps L s' ∧
    (s'.view = s.view ∨ ∃ i, s.timerGetClientTimer timer = some i ∧ s.externalTimer i = timer ∧
      (s.taskInfo i ≠ some task ∧ s'.view = { s.view with head := s.headWithout i } ∨
        s.taskInfo i = some task ∧ s'.view = { s.view with
          ticksNow := t
          head := some ((s.headWithout i).elim ((t + timerCvtToTick64 time unit) % 2 ^ 64)
            (min ((t + timerCvtToTick64 time unit) % 2 ^ 64))) }.update t')) := by
  rw [Timers.timerSet] at hr
  split at hr
  · cases hr
    exact ⟨⟨L, h, id⟩, .inl rfl⟩
  · cases hclient : s.timerGetClientTimer timer with
    | none => simp [timerPrepForSet, hclient] at hr
    | some i =>
      obtain ⟨-, -, hused⟩ := timerGetClientTimer_eq_some.mp hclient
      by_cases hext : s.externalTimer i = timer
      · obtain ⟨ha, ⟨next, prev, first, last, list, heq⟩, hview⟩ := h.timerRemove (i := i)
        have hi : i ∉ L.erase i := h.chained.nodup.not_mem_erase
        simp only [timerPrepForSet, hclient, hext, ne_eq, not_true_eq_false, if_false] at hr
        rw [heq] at hr ha hview
        cases hinfo : s.taskInfo i with
        | none => simp [setState, hinfo] at hr
        | some owner =>
          by_cases howner : owner = task
          · simp only [setState, hinfo, howner, not_true_eq_false, if_false, timetickGet] at hr
            obtain ⟨x, hx, hr⟩ := Option.map_eq_some_iff.mp hr
            cases hr
            -- the timers that are left keep their expiry
            have hhead : first.map (Function.update s.expiry i ((t + timerCvtToTick64 time unit) % 2 ^ 64)) =
                s.headWithout i := by
              have hhead' : first.map s.expiry = s.headWithout i := congrArg View.head hview
              rw [← hhead']
              refine Option.map_congr fun f hf => Function.update_of_ne ?_ ..
              have hfirst : first = (L.erase i).head? := ha.chained.doubly.first_eq
              exact ne_of_mem_of_not_mem (List.mem_of_mem_head? (hfirst ▸ hf)) hi
            have hput := fun hactive hfree => timerInsert (L := L.erase i) hactive hi hfree hx
            obtain ⟨⟨M, hM, ho⟩, -, hins⟩ := hput (ha.congr rfl rfl rfl rfl rfl rfl) hused
            refine ⟨keeps_update ⟨M, hM, fun hs => ho (hs.erase.congr fun j hj => ?_)⟩ t',
              .inr ⟨i, rfl, hext, .inr ⟨howner ▸ hinfo, ?_⟩⟩⟩
            · exact Function.update_of_ne (ne_of_mem_of_not_mem hj hi) ..
            rw [timerUpdateTimerInterrupt_view, hins]
            simp only [view, hhead, Function.update_self]
          · simp only [setState, hinfo, howner, not_false_eq_true, if_true] at hr
            cases hr
            refine ⟨⟨_, ha.congr rfl rfl rfl rfl rfl rfl, fun hs => hs.erase⟩, .inr ⟨i, rfl, hext, .inl ⟨?_, hview⟩⟩⟩
            exact fun heq => howner (Option.some.inj (hinfo.symm.trans heq))
      · simp [timerPrepForSet, hclient, hext] at hr

/-! ### The timer task -/

theorem processTimer {t : ℕ} (h : s.Active L) (hi : s.first = some i) (hphase : s.phase = .looping)
    (hr : s.processTimer i t = some s') : s.Keeps L s' ∧ s'.matchValue = s.matchValue ∧
      s'.processing = s.processing ∧ s'.phase ≠ .idle := by
  cases L with
  | nil => cases hi.symm.trans h.chained.doubly.1
  | cons k L =>
    obtain rfl : i = k := Option.some.inj (hi.symm.trans h.chained.doubly.1.1)
    have hiL : i ∉ L := (List.nodup_cons.mp h.chained.nodup).1
    obtain ⟨ha, ⟨next, prev, first, last, list, heq⟩, -⟩ := h.timerRemove (i := i)
    rw [heq, List.erase_cons_head] at ha
    rw [Timers.processTimer, h.chained.timerRemoveHead, heq] at hr
    -- the end of a pass, whether the timer expires or not
    have hend : ∀ {x : Timers} {M : List ℕ} {b : Bool}, (if b then x.timerExpire i else x.timetickGet t) = s' →
        x.Active M → (s.InOrder (i :: L) → x.InOrder M) → x.matchValue = s.matchValue → x.processing = s.processing →
        x.phase = s.phase → s.Keeps (i :: L) s' ∧ s'.matchValue = s.matchValue ∧ s'.processing = s.processing ∧
        s'.phase ≠ .idle := by
      rintro x M b rfl hx ho hm hp hph
      cases b with
      | true => exact ⟨⟨M, hx.congr rfl rfl rfl rfl rfl rfl, ho⟩, hm, hp, by simp [timerExpire]⟩
      | false => exact ⟨⟨M, hx.congr rfl rfl rfl rfl rfl rfl, ho⟩, hm, hp, by simp [timetickGet, hph, hphase]⟩
    have hstate : ∀ (x : Timers), ∃ st b, x.timerDetermineTimerExpiry i = ({ x with timerState := st }, b) := fun x => by
      rw [timerDetermineTimerExpiry]
      split
      · exact ⟨_, _, rfl⟩
      · exact ⟨_, _, rfl⟩
    cases hreload : s.reload i with
    | false =>
      simp only [hreload, Bool.false_eq_true, if_false, Option.map_some, Option.some.injEq] at hr
      obtain ⟨st, b, hst⟩ := hstate { s with next := next, prev := prev, first := first, last := last, list := list }
      simp only [hst] at hr
      exact hend hr (ha.congr rfl rfl rfl rfl rfl rfl) (fun ho => (List.pairwise_cons.mp ho).2) rfl rfl rfl
    | true =>
      simp only [hreload, if_true] at hr
      cases he : reloadExpiry s.ticksNow (s.expiry i) (s.durationSclk i) with
      | none => simp [he] at hr
      | some e =>
        simp only [he, Option.map_map] at hr
        obtain ⟨x, hx, hr⟩ := Option.map_eq_some_iff.mp hr
        have hused : s.free i = false := h.used i List.mem_cons_self
        have hput := fun hactive hfree => timerInsert (L := L) hactive hiL hfree hx
        obtain ⟨⟨M, hM, ho⟩, ⟨next, prev, first, last, list, rfl⟩, -⟩ := hput (ha.congr rfl rfl rfl rfl rfl rfl) hused
        have hrest : s.InOrder (i :: L) → InOrder { s with expiry := Function.update s.expiry i e } L := fun hs =>
          InOrder.congr (List.pairwise_cons.mp hs).2 fun j hj => Function.update_of_ne (ne_of_mem_of_not_mem hj hiL) ..
        obtain ⟨st, b, hst⟩ := hstate { s with
          next := next, prev := prev, first := first, last := last, list := list,
          expiry := Function.update s.expiry i e, start := Function.update s.start i s.ticksNow }
        simp only [Function.comp_apply, hst] at hr
        exact hend hr (hM.congr rfl rfl rfl rfl rfl rfl) (fun hs => ho (hrest hs)) rfl rfl rfl

theorem processEnd (h : s.Active L) :
    s.processEnd.Active L ∧ s.processEnd.expiry = s.expiry ∧ s.processEnd.view = { s.view with
    matchValue := s.view.head.getD s.matchValue, processing := false, phase := .idle } := by
  rw [Timers.processEnd]
  cases hfirst : s.first with
  | none => exact ⟨h.congr rfl rfl rfl rfl rfl rfl, rfl, by simp [view, hfirst]⟩
  | some f => exact ⟨h.congr rfl rfl rfl rfl rfl rfl, rfl, by simp [view, hfirst, timerSetNextInterrupt]⟩

theorem timerAdjustActiveList {adjustTick t : ℕ} (h : s.Active L) (hr : s.timerAdjustActiveList adjustTick t = some s') :
    s'.Active L ∧ s'.matchValue = s.matchValue ∧ s'.processing = s.processing ∧ s'.phase = s.phase := by
  rw [Timers.timerAdjustActiveList] at hr
  have hadjust := @adjustFrom_eq (s.timetickGet t) L adjustTick maxTimers _ h.chained.doubly.1 h.length_le
  simp only [timetickGet] at hadjust hr
  rw [hadjust] at hr
  cases hr
  exact ⟨h.congr rfl rfl rfl rfl rfl rfl, rfl, rfl, rfl⟩

end Active

end Timers

/-- Only the clock and the cached value change. -/
theorem View.update_eq (v : View) (t : ℕ) : ∃ n c, v.update t = { v with ticksNow := n, matchValue := c } := by
  rcases v with ⟨_ | e, c, n, flag, processing, phase⟩ <;> rw [View.update] <;> dsimp only
  · split
    · exact ⟨_, _, rfl⟩
    · exact ⟨_, _, rfl⟩
  · split
    · exact ⟨_, _, rfl⟩
    · split
      · exact ⟨_, _, rfl⟩
      · exact ⟨_, _, rfl⟩

/-! ### The invariant -/

namespace Machine

variable {m m' : Machine} {s : Timers} {e t : ℕ}

/-- The comparator interrupts no later than a timer that expires at `e`, or as soon as it was written if that was past
    then. -/
def Covers (m : Machine) (e : ℕ) : Prop := m.enabled = true ∧ (m.cval ≤ e ∨ e < m.setAt ∧ m.cval ≤ m.setAt)

instance (m : Machine) (e : ℕ) : Decidable (m.Covers e) := inferInstanceAs (Decidable (_ ∧ _))

/-- A notification of the timer task is pending. -/
def Pending (m : Machine) : Prop := m.expiryFromIsr = true ∨ m.pmWakeup = true

instance (m : Machine) : Decidable m.Pending := inferInstanceAs (Decidable (_ ∨ _))

/-- With no call, run of the timer task or sleep in progress, an interrupt or a run of the timer task is coming if a
    timer is active. -/
def Coming (m : Machine) : Prop :=
  m.task = .waiting → m.timers.phase = .idle → m.sleeping = false → ∀ f, m.timers.first = some f →
    m.Pending ∨ m.Covers (m.timers.expiry f)

/-- What is kept: the comparator, when it is on, has the value that is cached, and the timers are processed by the timer
    task only. -/
structure Inv (m : Machine) : Prop where
  active : ∃ L, m.timers.Active L
  matched : m.enabled = true → m.cval = m.timers.matchValue
  processed : m.timers.processing = true ↔ m.timers.phase ≠ .idle
  task : m.timers.phase ≠ .idle → m.task = .processing
  coming : m.task = .waiting → m.sleeping = false → ¬ m.Pending → ∀ e, m.timers.view.head = some e → m.Covers e

theorem Inv.init (handle : ℕ → ℕ) : (Machine.init handle).Inv where
  active := ⟨[], ⟨⟨⟨rfl, rfl⟩, by simp [Machine.init, Timers.init]⟩, by simp, by simp [Machine.init, Timers.init]⟩⟩
  matched := by simp [Machine.init]
  processed := by simp [Machine.init, Timers.init]
  task := by simp [Machine.init, Timers.init]
  coming _ _ _ e he := by simp [Machine.init, Timers.init, Timers.view] at he

theorem Inv.isComing (h : m.Inv) : m.Coming := by
  intro ht _ hs f hf
  by_cases hp : m.Pending
  · exact .inl hp
  · exact .inr (h.coming ht hs hp _ (by simp [Timers.view, hf]))

theorem follow_eq (m : Machine) (s : Timers) :
    ∃ on c a, m.follow s = { m with timers := s, enabled := on, cval := c, setAt := a } := by
  rw [follow]
  split
  · exact ⟨_, _, _, rfl⟩
  · exact ⟨_, _, _, rfl⟩

theorem follow_matched (h : m.Inv) (s : Timers) : (m.follow s).enabled = true → (m.follow s).cval = s.matchValue := by
  rw [follow]
  split
  · rename_i heq
    rw [heq]
    exact h.matched
  · exact fun _ => rfl

/-- The value that is cached did not change. -/
theorem follow_covers (h : m.Covers e) (hs : s.matchValue = m.timers.matchValue) : (m.follow s).Covers e := by
  rw [follow, if_pos hs]
  exact h

/-- At the time `t` the comparator can be brought up to date with a first timer that expires at `e`: if this is allowed,
    neither is `e` cached while the comparator is off, nor is `e` past and `t` cached; else it need not be. -/
def Programs (m : Machine) (t e : ℕ) : Prop :=
  if m.timers.doReprogramIsr then (e = m.timers.matchValue → m.enabled = true) ∧ (e < t → t ≠ m.timers.matchValue)
  else m.Covers e

instance (m : Machine) (t e : ℕ) : Decidable (m.Programs t e) := by unfold Programs; infer_instance

/-- After `timer_update_timer_interrupt`. -/
theorem follow_update {v : View} (h : m.Inv) (hp : m.Programs t e) (hs : s.view = v.update t) (hhead : v.head = some e)
    (hmatch : v.matchValue = m.timers.matchValue) (hflag : v.doReprogramIsr = m.timers.doReprogramIsr)
    (hproc : v.processing = false) : (m.follow s).Covers e := by
  rw [View.update, hflag, hproc, hhead, hmatch] at hs
  have hvalue : s.matchValue = s.view.matchValue := rfl
  rw [Programs] at hp
  cases hdo : m.timers.doReprogramIsr with
  | false =>
    simp only [hdo, Bool.false_eq_true, not_false_eq_true, true_or, if_true, if_false] at hs hp
    exact follow_covers hp (by rw [hvalue, hs, hmatch])
  | true =>
    simp only [hdo, not_true_eq_false, Bool.false_eq_true, or_self, if_true, if_false] at hs hp
    by_cases hcached : e = m.timers.matchValue
    · rw [if_pos hcached] at hs
      refine follow_covers ⟨hp.1 hcached, .inl ?_⟩ (by rw [hvalue, hs])
      rw [h.matched (hp.1 hcached), hcached]
    · rw [if_neg hcached] at hs
      have hm : s.matchValue = max e t := by rw [hvalue, hs]
      have hnow : s.ticksNow = t := congrArg View.ticksNow hs
      have hne : max e t ≠ m.timers.matchValue := by
        obtain hle | hlt := le_or_gt t e
        · rwa [max_eq_left hle]
        · rw [max_eq_right hlt.le]
          exact hp.2 hlt
      rw [follow, if_neg (by rw [hm]; exact hne)]
      refine ⟨rfl, ?_⟩
      simp only [hm, hnow]
      obtain hle | hlt := le_or_gt t e
      · exact .inl (max_eq_left hle).le
      · exact .inr ⟨hlt, (max_eq_right hlt.le).le⟩

end Machine

/-- The condition on a call: the comparator can be brought up to date with the timer that is first after it. A timer
    that another task sets is taken out of the list, and the comparator stays as it is. -/
def Event.Sets (m : Machine) : Event → Prop
  | .set timer task time _ unit t t' => unit ≠ .sec → ∀ i, m.timers.timerGetClientTimer timer = some i →
      m.timers.externalTimer i = timer →
      (m.timers.taskInfo i = some task → m.Programs t' ((t + timerCvtToTick64 time unit) % 2 ^ 64) ∧
        ∀ e ∈ m.timers.headWithout i, m.Programs t' e) ∧
      (m.timers.taskInfo i ≠ some task → ∀ e ∈ m.timers.headWithout i, m.Covers e)
  | .stop timer t | .undef timer t => ∀ i, m.timers.timerGetClientTimer timer = some i → m.timers.list i = true →
      ∀ e ∈ m.timers.headWithout i, m.Programs t e
  | _ => True

/-- The condition on an act, when it leaves no notification, run of the timer task or sleep: a call meets its own, the
    timer task does not end with the next expiry cached and the comparator off, and it does not drop a wake-up after no
    time at all while the comparator is late. -/
def Act.Apt (m : Machine) : Act → Prop
  | .call e => m.task = .waiting → m.sleeping = false → ¬ m.Pending → e.Sets m
  | .process (.processNext _) => m.sleeping = false → ¬ m.Pending → ∀ f, m.timers.first = some f →
      ¬ m.timers.expires f → m.timers.expiry f = m.timers.matchValue → m.enabled = true
  | .queueReceive => m.task = .receiving false → m.slept = 0 → m.sleeping = false → ¬ m.Pending →
      ∀ f, m.timers.first = some f → m.Covers (m.timers.expiry f)
  | _ => True

/-- A step that meets the condition. -/
def Act.AptStep (m m' : Machine) : Prop := ∃ a : Act, a.Apt m ∧ m.run a = some m'

namespace Machine

variable {m m' : Machine} {s : Timers}

/-- A call of an owner. -/
theorem Inv.call {e : Event} (h : m.Inv) (he : e.ofOwner = true) (hr : e.run m.timers = some s) :
    (∃ M, s.Active M) ∧ s.processing = m.timers.processing ∧ s.phase = m.timers.phase ∧
      (m.task = .waiting → m.sleeping = false → ¬ m.Pending → e.Sets m →
        ∀ x, s.view.head = some x → (m.follow s).Covers x) := by
  obtain ⟨L, hL⟩ := h.active
  have hidle : m.task = .waiting → m.timers.processing = false := fun ht => by
    rw [← Bool.not_eq_true, h.processed]
    exact fun hph => by cases ht.symm.trans (h.task hph)
  -- a change of the clock only
  have hsame : ∀ {n : ℕ}, s.view = { m.timers.view with ticksNow := n } → s.processing = m.timers.processing ∧
      s.phase = m.timers.phase ∧ (m.task = .waiting → m.sleeping = false → ¬ m.Pending → e.Sets m →
        ∀ x, s.view.head = some x → (m.follow s).Covers x) := fun {n} hv => by
    refine ⟨congrArg View.processing hv, congrArg View.phase hv, fun ht hs hp _ x hx => ?_⟩
    rw [hv] at hx
    exact follow_covers (h.coming ht hs hp x hx) (congrArg View.matchValue hv)
  -- the list changes, and the interrupt is brought up to date
  have hupdate : ∀ {hd : Option ℕ} {n t : ℕ}, s.view = { m.timers.view with head := hd, ticksNow := n }.update t →
      (m.task = .waiting → m.sleeping = false → ¬ m.Pending → e.Sets m → ∀ x ∈ hd, m.Programs t x) →
      s.processing = m.timers.processing ∧ s.phase = m.timers.phase ∧
      (m.task = .waiting → m.sleeping = false → ¬ m.Pending → e.Sets m →
        ∀ x, s.view.head = some x → (m.follow s).Covers x) := fun {hd n t} hv hprog => by
    obtain ⟨n', c, heq⟩ := View.update_eq { m.timers.view with head := hd, ticksNow := n } t
    have hv' := hv.trans heq
    refine ⟨congrArg View.processing hv', congrArg View.phase hv', fun ht hs hp ha x hx => ?_⟩
    have hhd : hd = some x := (congrArg View.head hv').symm.trans hx
    exact follow_update h (hprog ht hs hp ha x hhd) hv hhd rfl rfl (hidle ht)
  cases e with
  | define timer timerCb taskInfo =>
    obtain ⟨-, hr⟩ := ite_eq_iff.mp hr |>.resolve_left fun hn => by simp at hn
    obtain ⟨⟨x, e⟩, hx, rfl⟩ := Option.map_eq_some_iff.mp hr
    obtain ⟨ha, -, hv⟩ := hL.hresTimerDef hx
    exact ⟨⟨L, ha⟩, hsame hv⟩
  | set timer task time reload unit t t' =>
    obtain ⟨-, hr⟩ := ite_eq_iff.mp hr |>.resolve_left fun hn => by simp at hn
    obtain ⟨⟨x, e⟩, hx, rfl⟩ := Option.map_eq_some_iff.mp hr
    rw [Timers.hresTimerSet64] at hx
    split at hx
    · cases hx
      exact ⟨⟨L, hL⟩, hsame rfl⟩
    · rename_i hunit
      obtain ⟨⟨y, e⟩, hy, hx⟩ := Option.map_eq_some_iff.mp hx
      cases hx
      obtain ⟨ha, hv | ⟨i, hi, hext, ⟨htask, hv⟩ | ⟨htask, hv⟩⟩⟩ := hL.timerSet hy
      · exact ⟨ha.active, hsame hv⟩
      · refine ⟨ha.active, congrArg View.processing hv, congrArg View.phase hv, fun _ _ _ hset x hx => ?_⟩
        have hhd : m.timers.headWithout i = some x := (congrArg View.head hv).symm.trans hx
        exact follow_covers ((hset hunit i hi hext).2 htask x hhd) (congrArg View.matchValue hv)
      · refine ⟨ha.active, hupdate hv fun _ _ _ hset x hx => ?_⟩
        obtain ⟨hnew, hold⟩ := (hset hunit i hi hext).1 htask
        cases hrest : m.timers.headWithout i with
        | none =>
          rw [hrest] at hx
          cases hx
          exact hnew
        | some f =>
          rw [hrest] at hx
          cases hx
          change m.Programs t' (min _ f)
          obtain hmin | hmin := min_choice ((t + timerCvtToTick64 time unit) % 2 ^ 64) f <;> rw [hmin]
          · exact hnew
          · exact hold f hrest
  | stop timer t =>
    obtain ⟨-, hr⟩ := ite_eq_iff.mp hr |>.resolve_left fun hn => by simp at hn
    cases hr
    obtain ⟨ha, hv | ⟨i, hi, hlist, hv⟩⟩ := hL.hresTimerStop timer t
    · exact ⟨ha.active, hsame hv⟩
    · exact ⟨ha.active, hupdate hv fun _ _ _ hset => hset i hi hlist⟩
  | undef timer t =>
    obtain ⟨-, hr⟩ := ite_eq_iff.mp hr |>.resolve_left fun hn => by simp at hn
    cases hr
    obtain ⟨ha, hv | ⟨i, hi, hlist, hv⟩⟩ := hL.hresTimerUndef timer t
    · exact ⟨ha.active, hsame hv⟩
    · exact ⟨ha.active, hupdate hv fun _ _ _ hset => hset i hi hlist⟩
  | tick t =>
    cases hr
    exact ⟨⟨L, hL.congr rfl rfl rfl rfl rfl rfl⟩, hsame rfl⟩
  | adjust adjustTick t => cases he
  | processStart t => cases he
  | processNext t => cases he
  | resume t => cases he

/-- The timers change to `s`, and the timer task goes on to `task`. -/
theorem Inv.followed {task : TaskAt} (h : m.Inv) (ha : ∃ M, s.Active M) (hp : s.processing = true ↔ s.phase ≠ .idle)
    (ht : s.phase ≠ .idle → task = .processing) (hc : task = .waiting → m.sleeping = false → ¬ m.Pending →
      ∀ x, s.view.head = some x → (m.follow s).Covers x) : Inv { m.follow s with task := task } := by
  have hmatched := follow_matched h s
  obtain ⟨on, c, a, hfollow⟩ := m.follow_eq s
  rw [hfollow] at hmatched hc ⊢
  exact ⟨ha, hmatched, hp, ht, hc⟩

/-- A step of `timer_process_active_timers`. -/
theorem Inv.process {e : Event} (h : m.Inv) (he : e.ofProcess = true)
    (hr : e.run m.timers = some s) (ha : (Act.process e).Apt m) :
    Inv { m.follow s with task := if s.phase = .idle then .waiting else .processing } := by
  obtain ⟨L, hL⟩ := h.active
  -- the timers are still processed
  have hbusy : (∃ M, s.Active M) → s.processing = true → s.phase ≠ .idle →
      Inv { m.follow s with task := if s.phase = .idle then .waiting else .processing } := fun hact hp hph => by
    rw [if_neg hph]
    exact h.followed hact ⟨fun _ => hph, fun _ => hp⟩ (fun _ => rfl) fun hw => by cases hw
  cases e with
  | processStart t =>
    obtain ⟨-, hr⟩ := ite_eq_iff.mp hr |>.resolve_right fun hn => by simp at hn
    cases hr
    exact hbusy ⟨L, hL.congr rfl rfl rfl rfl rfl rfl⟩ rfl (by simp)
  | resume t =>
    obtain ⟨hph, hr⟩ := ite_eq_iff.mp hr |>.resolve_right fun hn => by simp at hn
    cases hr
    exact hbusy ⟨L, hL.congr rfl rfl rfl rfl rfl rfl⟩ (h.processed.mpr (by simp [hph])) (by simp)
  | processNext t =>
    obtain ⟨hph, hr⟩ := ite_eq_iff.mp hr |>.resolve_right fun hn => by simp at hn
    have hproc : m.timers.processing = true := h.processed.mpr (by simp [hph])
    -- they are all processed
    have hend : m.timers.processEnd = s → (∀ f, m.timers.first = some f → ¬ m.timers.expires f) →
        Inv { m.follow s with task := if s.phase = .idle then .waiting else .processing } := fun hs hexp => by
      obtain ⟨hact, -, hv⟩ := hL.processEnd
      rw [hs] at hact hv
      have hidle : s.phase = .idle := congrArg View.phase hv
      have hp : s.processing = false := congrArg View.processing hv
      rw [if_pos hidle]
      refine h.followed ⟨L, hact⟩ (by simp [hidle, hp]) (fun hne => absurd hidle hne) fun _ hsl hpend x hx => ?_
      have hhead : m.timers.view.head = some x := (congrArg View.head hv).symm.trans hx
      obtain ⟨f, hf, rfl⟩ := Option.map_eq_some_iff.mp hhead
      have hmatch : s.matchValue = m.timers.expiry f := by
        rw [show s.matchValue = s.view.matchValue from rfl, hv, hhead, Option.getD_some]
      by_cases hcached : m.timers.expiry f = m.timers.matchValue
      · have hon := ha hsl hpend f hf (hexp f hf) hcached
        exact follow_covers ⟨hon, .inl (by rw [h.matched hon, hcached])⟩ (hmatch.trans hcached)
      · rw [follow, if_neg (by rwa [hmatch])]
        exact ⟨rfl, .inl hmatch.le⟩
    cases hfirst : m.timers.first with
    | none =>
      simp only [hfirst] at hr
      exact hend (Option.some.inj hr) (by simp [hfirst])
    | some i =>
      simp only [hfirst] at hr
      split at hr
      · obtain ⟨hact, -, hp, hne⟩ := hL.processTimer hfirst hph hr
        exact hbusy hact.active (hp.trans hproc) hne
      · rename_i hexp
        exact hend (Option.some.inj hr) fun f hf => by
          rw [hfirst] at hf
          cases hf
          exact hexp
  | define timer timerCb taskInfo => cases he
  | set timer task time reload unit t t' => cases he
  | stop timer t => cases he
  | undef timer t => cases he
  | adjust adjustTick t => cases he
  | tick t => cases he

/-- What an act keeps. -/
theorem Inv.run {a : Act} (h : m.Inv) (ha : a.Apt m) (hr : m.run a = some m') : m'.Inv := by
  cases a with
  | call e =>
    obtain ⟨he, hr⟩ := ite_eq_iff.mp hr |>.resolve_right fun hn => by simp at hn
    obtain ⟨s, hs, rfl⟩ := Option.map_eq_some_iff.mp hr
    obtain ⟨hact, hp, hph, hc⟩ := h.call he hs
    have hinv : Inv { m.follow s with task := m.task } := by
      refine h.followed hact ?_ ?_ fun ht hsl hpend => hc ht hsl hpend (ha ht hsl hpend)
      · rw [hp, hph]
        exact h.processed
      · rw [hph]
        exact h.task
    obtain ⟨on, c, a, hfollow⟩ := m.follow_eq s
    rwa [hfollow] at hinv ⊢
  | interrupt =>
    obtain ⟨-, hr⟩ := ite_eq_iff.mp hr |>.resolve_right fun hn => by simp at hn
    cases hr
    exact ⟨h.active, (fun hon => nomatch hon), h.processed, h.task, fun _ _ hp => absurd (.inl rfl) hp⟩
  | notifyWait =>
    obtain ⟨⟨ht, hpend⟩, hr⟩ := ite_eq_iff.mp hr |>.resolve_right fun hn => by simp at hn
    cases hr
    refine ⟨h.active, h.matched, h.processed, fun hph => ?_, fun hw => ?_⟩
    · cases ht.symm.trans (h.task hph)
    · have hw' : (if m.pmWakeup then TaskAt.receiving m.expiryFromIsr else .processing) = .waiting := hw
      split at hw' <;> cases hw'
  | queueReceive =>
    cases ht : m.task with
    | receiving isr =>
      simp only [Machine.run, ht] at hr
      cases hr
      refine ⟨h.active, h.matched, h.processed, fun hph => ?_, fun hw hsl hpend x hx => ?_⟩
      · cases ht.symm.trans (h.task hph)
      · have hw' : (if m.slept > 0 then TaskAt.adjusting else if isr then .processing else .waiting) = .waiting := hw
        split at hw'
        · cases hw'
        · rename_i hslept
          split at hw'
          · cases hw'
          · rename_i hisr
            obtain ⟨f, hf, rfl⟩ := Option.map_eq_some_iff.mp hx
            have hfalse : isr = false := by simpa using hisr
            exact ha (hfalse ▸ ht) (Nat.eq_zero_of_not_pos hslept) hsl hpend f hf
    | waiting => simp [Machine.run, ht] at hr
    | adjusting => simp [Machine.run, ht] at hr
    | processing => simp [Machine.run, ht] at hr
  | adjust t =>
    obtain ⟨-, hr⟩ := ite_eq_iff.mp hr |>.resolve_right fun hn => by simp at hn
    obtain ⟨s, hs, rfl⟩ := Option.map_eq_some_iff.mp hr
    obtain ⟨-, hs⟩ := ite_eq_iff.mp hs |>.resolve_right fun hn => by simp at hn
    obtain ⟨L, hL⟩ := h.active
    obtain ⟨hact, -, hp, hph⟩ := hL.timerAdjustActiveList hs
    refine h.followed ⟨L, hact⟩ ?_ (fun _ => rfl) fun hw => by cases hw
    rw [hp, hph]
    exact h.processed
  | process e =>
    obtain ⟨⟨-, he⟩, hr⟩ := ite_eq_iff.mp hr |>.resolve_right fun hn => by simp at hn
    obtain ⟨s, hs, rfl⟩ := Option.map_eq_some_iff.mp hr
    exact h.process he hs ha
  | preSleep t =>
    obtain ⟨-, hr⟩ := ite_eq_iff.mp hr |>.resolve_left fun hn => by simp at hn
    cases hr
    obtain ⟨flag, heq⟩ := m.timers.hresTimerPreSleep_eq t
    rw [heq]
    obtain ⟨L, hL⟩ := h.active
    exact ⟨⟨L, hL.congr rfl rfl rfl rfl rfl rfl⟩, h.matched, h.processed, h.task, fun _ hsl => by cases hsl⟩
  | postSleep =>
    obtain ⟨-, hr⟩ := ite_eq_iff.mp hr |>.resolve_right fun hn => by simp at hn
    cases hr
    exact ⟨h.active, h.matched, h.processed, h.task, fun _ _ hp => absurd (.inl rfl) hp⟩
  | sleepAdjust sleepDuration =>
    obtain ⟨-, hr⟩ := ite_eq_iff.mp hr |>.resolve_right fun hn => by simp at hn
    cases hr
    exact ⟨h.active, h.matched, h.processed, h.task, fun _ _ hp => absurd (.inr rfl) hp⟩

end Machine

/-- In every run whose acts meet the condition, an interrupt is coming in every state. -/
theorem interrupt_coming {handle : ℕ → ℕ} {m : Machine} (h : Reach Act.AptStep (Machine.init handle) m) : m.Coming := by
  have hinv : m.Inv := by
    refine Reach.inv h (Machine.Inv.init handle) ?_
    rintro x y ⟨a, ha, hr⟩ hx
    exact hx.run ha hr
  exact hinv.isComing

/-- The acts one after the other. -/
def Act.runAll (m : Machine) (as : List Act) : Option Machine := as.foldlM (fun m a => m.run a) m

/-- A timer is set, a sleep of 1 us is over and the list is adjusted; the timer is set again, and the comparator has its
    expiry. -/
theorem interrupt_coming_adjusted : ∃ m, Act.runAll (Machine.init fun _ => 0)
    [.call (.define 1 (some 3) (some 7)), .call (.set 1 7 100 false .tick 0 0), .preSleep 10, .sleepAdjust 1,
      .notifyWait, .queueReceive, .adjust 60, .process (.processStart 61), .process (.processNext 0),
      .call (.set 1 7 20 false .tick 70 70)] = some m ∧ m.Coming ∧ m.enabled = true ∧ m.cval = 90 := by
  refine ⟨_, rfl, ?_, rfl, rfl⟩
  have h₁ : Reach Act.AptStep (Machine.init fun _ => 0) _ :=
    .one ⟨.call (.define 1 (some 3) (some 7)), fun _ _ _ => trivial, rfl⟩
  have h₂ := h₁.tail ⟨.call (.set 1 7 100 false .tick 0 0), fun _ _ _ _ i hi _ => by
    cases hi
    exact ⟨fun _ => ⟨by decide, fun e he => by cases he⟩, fun hne => absurd rfl hne⟩, rfl⟩
  have h₃ := h₂.tail ⟨.preSleep 10, trivial, rfl⟩
  have h₄ := h₃.tail ⟨.sleepAdjust 1, trivial, rfl⟩
  have h₅ := h₄.tail ⟨.notifyWait, trivial, rfl⟩
  have h₆ := h₅.tail ⟨.queueReceive, fun _ h0 => absurd h0 (by decide), rfl⟩
  have h₇ := h₆.tail ⟨.adjust 60, trivial, rfl⟩
  have h₈ := h₇.tail ⟨.process (.processStart 61), trivial, rfl⟩
  have h₉ := h₈.tail ⟨.process (.processNext 0), fun _ _ _ _ _ _ => rfl, rfl⟩
  refine interrupt_coming (h₉.tail ⟨.call (.set 1 7 20 false .tick 70 70), fun _ _ _ _ i hi _ => ?_, rfl⟩)
  cases hi
  exact ⟨fun _ => ⟨by decide, fun e he => by cases he⟩, fun hne => absurd rfl hne⟩

/-- After a sleep that is over with `hres_timer_post_sleep`, a timer that is set has no interrupt. A wake-up after a
    sleep of no time does not give one to the timer that was set before the timer task ran. And a timer has none whose
    expiry is the one that the comparator had when it was turned off. -/
theorem interrupt_lost :
    (∃ m, Act.runAll (Machine.init fun _ => 0)
      [.call (.define 1 (some 3) (some 7)), .preSleep 0, .postSleep, .notifyWait, .process (.processStart 10),
        .process (.processNext 0), .call (.set 1 7 100 false .tick 20 20)] = some m ∧ ¬ m.Coming) ∧
    (∃ m, Act.runAll (Machine.init fun _ => 0)
      [.call (.define 1 (some 3) (some 7)), .preSleep 0, .sleepAdjust 0, .call (.set 1 7 100 false .tick 20 20),
        .notifyWait, .queueReceive] = some m ∧ ¬ m.Coming) ∧
    ∃ m, Act.runAll (Machine.init fun _ => 0)
      [.call (.define 1 (some 3) (some 7)), .call (.set 1 7 100 false .tick 0 0), .interrupt, .notifyWait,
        .process (.processStart 100), .process (.processNext 100), .process (.resume 110), .process (.processNext 0),
        .call (.set 1 7 (2 ^ 64 - 100) false .tick 200 200)] = some m ∧ ¬ m.Coming := by
  refine ⟨⟨_, rfl, ?_⟩, ⟨_, rfl, ?_⟩, _, rfl, ?_⟩
  all_goals
    intro h
    exact absurd (h rfl rfl rfl 0 rfl) (by decide)

end Qcc730.Timer
