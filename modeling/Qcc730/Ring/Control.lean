import Qcc730.Lib.Reach
import Qcc730.Ring.Context

/-! The host-to-firmware control ring and its task.

    The host writes a message and raises an interrupt. The interrupt runs `ringif_tickle_all_rings`, which sets
    a notification bit of the ring task if the ring is not empty; bits that are set twice before the task
    runs are one bit. The task takes all bits at once and handles them one after the other. Its handling of the
    control ring takes one message, and the host and the interrupt may act between any two of its
    statements. -/

namespace Qcc730.Ring
open Lib

namespace RingCtx

/-- `ringif_a2f_get_read_idx`: how many elements are to be read, and where. -/
def a2fGetReadIdx (c : RingCtx) : Option (ℕ × ℕ) :=
  if c.ringEmpty then none
  else if c.readIdx < c.writeIdx then some (c.writeIdx - c.readIdx, c.readIdx)
  else some (c.ringNumElem + c.writeIdx - c.readIdx, c.readIdx)

/-- `ringif_a2f_next_read_elem`: the index of the element. -/
def a2fNextReadElem (c : RingCtx) : Option ℕ := c.a2fGetReadIdx.map (·.2)

/-- `ringif_a2f_num_pending_pkts`. -/
def a2fNumPendingPkts (c : RingCtx) : ℕ :=
  if c.readIdx ≤ c.writeIdx then c.writeIdx - c.readIdx else c.ringNumElem + c.writeIdx - c.readIdx

/-- `ringif_a2f_mark_as_read`. -/
def a2fMarkAsRead (c : RingCtx) (numReadElem : ℕ) : RingCtx :=
  { c with
    elem := fun i => if c.readIdx ≤ i ∧ i < c.readIdx + numReadElem then .zero else c.elem i
    readIdx := (c.readIdx + numReadElem) % c.ringNumElem }

/-- The loop of `ringif_a2f_get_next_empty_elem`, over at most `fuel` elements. -/
def emptyElemFrom (c : RingCtx) : ℕ → ℕ → Option ℕ
  | 0, _ => none
  | fuel + 1, idx =>
    if (c.elem idx).pBuf = 0 then some idx
    else if (idx + 1) % c.ringNumElem = c.readIdx then none
    else c.emptyElemFrom fuel ((idx + 1) % c.ringNumElem)

/-- `ringif_a2f_get_next_empty_elem`. -/
def a2fGetNextEmptyElem (c : RingCtx) : Option ℕ :=
  if c.ringFull then none else c.emptyElemFrom c.ringNumElem c.writeIdx

end RingCtx

/-- `ringif_refill_ctrl_elem`; `alloc` is what the allocation in `ringif_get_ctrl_buf` returns. The length is
    written before the allocation is tested. -/
def refillCtrlElem (ctrlRingSize alloc : ℕ) (e : Element) : Bool × Element :=
  if e.pBufStart ≠ 0 ∨ e.pBuf ≠ 0 ∨ e.len ≠ 0 then (false, e)
  else if alloc ≠ 0 then (true, { e with len := ctrlRingSize, pBufStart := alloc, pBuf := alloc })
  else (false, { e with len := ctrlRingSize })

/-- `ringif_a2f_refill_next_empty_elem` with `ringif_refill_ctrl_elem`. -/
def RingCtx.a2fRefillNextEmptyElem (c : RingCtx) (ctrlRingSize alloc : ℕ) : RingCtx :=
  match c.a2fGetNextEmptyElem with
  | none => c
  | some i => c.setElem i (refillCtrlElem ctrlRingSize alloc (c.elem i)).2

/-- The notification bits of the ring task. -/
structure Bits where
  /-- `RINGIF_SIGNAL_A2F_RING_UPDATE` -/
  a2f : Bool
  /-- `RINGIF_SIGNAL_F2A_RING_UPDATE` -/
  f2a : Bool
  /-- `RINGIF_SIGNAL_MESSAGE_QUEUE` -/
  queue : Bool
  deriving DecidableEq, Repr

def Bits.none : Bits := ⟨false, false, false⟩

/-- Where `ringif_handle_tasks` stands; the bits are its `notified_value`. -/
inductive CtrlTask where
  /-- in `xTaskNotifyWait` -/
  | wait
  /-- before the A2F bit is tested -/
  | a2f (v : Bits)
  /-- the element at `idx` is posted next -/
  | post (v : Bits) (idx : ℕ)
  /-- it is posted; `ringif_a2f_mark_as_read` is next -/
  | mark (v : Bits)
  /-- it is marked; `ringif_a2f_refill_next_empty_elem` is next -/
  | refill (v : Bits)
  /-- before the F2A bit is tested -/
  | f2a (v : Bits)
  /-- before the bit of the message queue is tested -/
  | queue (v : Bits)
  deriving DecidableEq, Repr

/-- The control ring, the ring task and the ring timer. -/
structure Ctrl where
  ring : RingCtx
  ctrlRingSize : ℕ
  /-- the notification value of the ring task -/
  bits : Bits
  task : CtrlTask
  /-- `ringif_timer` is running -/
  timer : Bool
  /-- a message was written and its interrupt is not delivered yet -/
  irq : Bool
  /-- how many messages the host has written -/
  written : ℕ
  /-- how often the read index was moved on -/
  read : ℕ

inductive CtrlAct where
  /-- the host writes a message -/
  | host (len info : ℕ)
  /-- the interrupt is delivered; `f2a`: an F2A ring of the task has elements to clear -/
  | interrupt (f2a : Bool)
  /-- the ring timer fires -/
  | timer (f2a : Bool)
  /-- another ring starts or stops the timer -/
  | setTimer (on : Bool)
  /-- another thread puts a message into the queue of the task -/
  | send
  /-- the task gets one statement on; `ok` is whether the message can be posted, `alloc` the buffer of the
      refill, and `timer` whether the clearing of the F2A ring starts the timer -/
  | task (ok : Bool) (alloc : ℕ) (timer : Bool)

namespace Ctrl

def host (s : Ctrl) (len info : ℕ) : Ctrl :=
  let e := { s.ring.elem s.ring.writeIdx with len := len, info := info }
  if e.pBuf ≠ 0 ∧ (s.ring.writeIdx + 1) % s.ring.ringNumElem ≠ s.ring.readIdx then
    { s with
      ring := { s.ring.setElem s.ring.writeIdx e with writeIdx := (s.ring.writeIdx + 1) % s.ring.ringNumElem }
      irq := true
      written := s.written + 1 }
  else s

/-- `ringif_tickle_all_rings`, as far as the ring task is concerned. -/
def tickleAllRings (s : Ctrl) (f2a : Bool) : Ctrl :=
  { s with
    timer := false
    bits := { s.bits with a2f := s.bits.a2f || !s.ring.ringEmpty, f2a := s.bits.f2a || f2a } }

/-- The next statement of `ringif_handle_tasks` and of `process_ctrl_a2f_ring_update`. -/
def handleTasks (s : Ctrl) (ok : Bool) (alloc : ℕ) (timer : Bool) : Ctrl :=
  match s.task with
  | .wait => if s.bits = .none then s else { s with bits := .none, task := .a2f s.bits }
  | .a2f v =>
    if v.a2f then
      match s.ring.a2fNextReadElem with
      | none => { s with task := .f2a v }
      | some idx => { s with task := .post v idx }
    else { s with task := .f2a v }
  | .post v _ => if ok then { s with task := .mark v } else { s with task := .f2a v }
  | .mark v => { s with ring := s.ring.a2fMarkAsRead 1, task := .refill v, read := s.read + 1 }
  | .refill v => { s with ring := s.ring.a2fRefillNextEmptyElem s.ctrlRingSize alloc, task := .f2a v }
  | .f2a v => { s with timer := s.timer || (v.f2a && timer), task := .queue v }
  | .queue _ => { s with task := .wait }

def act (s : Ctrl) : CtrlAct → Ctrl
  | .host len info => s.host len info
  | .interrupt f2a => { s.tickleAllRings f2a with irq := false }
  | .timer f2a => if s.timer then s.tickleAllRings f2a else s
  | .setTimer on => { s with timer := on }
  | .send => { s with bits := { s.bits with queue := true } }
  | .task ok alloc timer => s.handleTasks ok alloc timer

/-- After `create_config_rings`, which makes the ring with the write index as it was found, puts buffers into its
    elements and starts the timer. -/
def create (numElem writeIdx : ℕ) (elem : ℕ → Element) (ctrlRingSize : ℕ) : Ctrl :=
  ⟨{ RingCtx.createA2fRing numElem writeIdx with elem := elem }, ctrlRingSize, .none, .wait, true, false, 0, 0⟩

/-- One step of one of the parties. -/
def Step (s s' : Ctrl) : Prop := ∃ a, s' = s.act a

/-- When the task has taken a message it is the only one in the ring, and it can be posted, unless an interrupt or
    another notification is still to come. -/
def Calm (s : Ctrl) : CtrlAct → Prop
  | .task ok _ _ =>
    match s.task with
    | .post _ _ => ok = true ∨ s.irq = true ∨ s.bits.a2f = true
    | .mark _ =>
      s.ring.writeIdx = (s.ring.readIdx + 1) % s.ring.ringNumElem ∨ s.irq = true ∨ s.bits.a2f = true
    | _ => True
  | _ => True

def CalmStep (s s' : Ctrl) : Prop := ∃ a, s.Calm a ∧ s' = s.act a

end Ctrl

/-! ### Marking elements as read -/

namespace RingCtx

variable {c : RingCtx} {k : ℕ}

/-- The elements the loop of `ringif_a2f_mark_as_read` zeroes, in order. -/
def markStores (c : RingCtx) (numReadElem : ℕ) : List ℕ := List.range' c.readIdx numReadElem

/-- Zeroing one element after the other. -/
theorem foldl_setElem_zero (c : RingCtx) (L : List ℕ) :
    L.foldl (fun c i => c.setElem i .zero) c = { c with elem := fun i => if i ∈ L then .zero else c.elem i } := by
  induction L generalizing c with
  | nil => simp
  | cons j L ih =>
    rw [List.foldl_cons, ih]
    simp only [setElem, RingCtx.mk.injEq, true_and, and_true]
    funext i
    by_cases hL : i ∈ L
    · rw [if_pos hL, if_pos (List.mem_cons_of_mem j hL)]
    · by_cases hij : i = j
      · subst hij
        rw [if_neg hL, Function.update_self, if_pos List.mem_cons_self]
      · rw [if_neg hL, Function.update_of_ne hij, if_neg (by simp [hij, hL])]

theorem a2fMarkAsRead_eq (c : RingCtx) (k : ℕ) :
    c.a2fMarkAsRead k =
      { (c.markStores k).foldl (fun c i => c.setElem i .zero) c with
        readIdx := (c.readIdx + k) % c.ringNumElem } := by
  rw [foldl_setElem_zero, a2fMarkAsRead]
  simp only [markStores, List.mem_range'_1]

/-- The marking goes round with the ring: it zeroes the `numReadElem` elements from the read index on, nothing
    outside of the ring, and moves the read index past them. -/
structure MarksRead (c : RingCtx) (numReadElem : ℕ) : Prop where
  stores : ∀ i, i ∈ c.markStores numReadElem ↔ ∃ j < numReadElem, i = (c.readIdx + j) % c.ringNumElem
  inRing : ∀ i ∈ c.markStores numReadElem, i < c.ringNumElem
  elem : ∀ i, (c.a2fMarkAsRead numReadElem).elem i =
    if ∃ j < numReadElem, i = (c.readIdx + j) % c.ringNumElem then .zero else c.elem i
  readIdx : (c.a2fMarkAsRead numReadElem).readIdx = (c.readIdx + numReadElem) % c.ringNumElem

/-- It does so exactly when the elements do not reach past the end of the ring. -/
theorem marksRead_iff (hr : c.readIdx < c.ringNumElem) : c.MarksRead k ↔ c.readIdx + k ≤ c.ringNumElem := by
  constructor
  · intro h
    cases k with
    | zero => omega
    | succ k =>
      have hlast := h.inRing (c.readIdx + k) (by simp [markStores, List.mem_range'_1])
      omega
  · intro hle
    have hmem : ∀ i, i ∈ c.markStores k ↔ ∃ j < k, i = (c.readIdx + j) % c.ringNumElem := by
      intro i
      rw [markStores, List.mem_range'_1]
      constructor
      · rintro ⟨h, h'⟩
        exact ⟨i - c.readIdx, by omega, by rw [Nat.add_sub_cancel' h, Nat.mod_eq_of_lt (by omega)]⟩
      · rintro ⟨j, hj, rfl⟩
        rw [Nat.mod_eq_of_lt (by omega)]
        omega
    refine ⟨hmem, fun i hi => ?_, fun i => ?_, rfl⟩
    · rw [markStores, List.mem_range'_1] at hi
      omega
    · rw [a2fMarkAsRead_eq, foldl_setElem_zero]
      exact if_congr (hmem i) rfl rfl

/-- Three packets from element 4 on. -/
theorem marksRead_of_three :
    { createA2fRing 16 4 with writeIdx := 7 }.MarksRead 3 ↔ 4 + 3 ≤ 16 :=
  marksRead_iff (by decide)

/-- Two packets that are pending in elements 15 and 0. -/
theorem marksRead_past_end :
    ¬ ∀ (c : RingCtx) (k : ℕ), c.readIdx < c.ringNumElem → k ≤ c.a2fNumPendingPkts → c.MarksRead k := by
  intro h
  have hmarks := (h { createA2fRing 16 15 with writeIdx := 1 } 2 (by decide) (by decide)).inRing 16 (by decide)
  exact absurd hmarks (by decide)

end RingCtx

/-! ### Wakeups -/

/-- The task has still to look at the ring, or is at a message. -/
def CtrlTask.Looking : CtrlTask → Prop
  | .a2f v => v.a2f = true
  | .post _ _ | .mark _ => True
  | _ => False

/-- The task is at a message. -/
def CtrlTask.AtMessage : CtrlTask → Prop
  | .post _ _ | .mark _ => True
  | _ => False

namespace Ctrl

/-- `b` is where the ring of `n` elements started. A message in the ring has a wakeup on its way. -/
structure Inv (b n : ℕ) (s : Ctrl) : Prop where
  pos : 0 < n
  num : s.ring.ringNumElem = n
  read_le : s.read ≤ s.written
  room : s.written < s.read + n
  write : s.ring.writeIdx = (b + s.written) % n
  readIdx : s.ring.readIdx = (b + s.read) % n
  place : s.task.AtMessage → s.read < s.written
  wake : s.read = s.written ∨ s.irq = true ∨ s.bits.a2f = true ∨ s.task.Looking

variable {b n : ℕ} {s : Ctrl}

theorem inv_create (hn : 0 < n) (w : ℕ) (elem : ℕ → Element) (size : ℕ) :
    Inv (create n w elem size).ring.writeIdx n (create n w elem size) := by
  have hlt : (if w < n then w else 0) < n := RingCtx.createA2fRing_lt hn w
  refine ⟨hn, rfl, le_rfl, by simpa [create] using hn, ?_, ?_, fun h => h.elim, .inl rfl⟩ <;>
    simp [create, RingCtx.createA2fRing, Nat.mod_eq_of_lt hlt]

namespace Inv

theorem empty_iff (h : Inv b n s) : s.ring.ringEmpty = true ↔ s.read = s.written := by
  have hw := Nat.mod_lt (b + s.written) h.pos
  have hr := Nat.mod_lt (b + s.read) h.pos
  have hle := h.read_le
  have hroom := h.room
  have hiff := mod_eq_mod_iff_lap (n := n) (x := b + s.read) (y := b + s.written) h.pos (by omega) (by omega)
  simp only [RingCtx.ringEmpty, h.num, h.write, h.readIdx, if_neg hw.not_ge, if_neg hr.not_ge,
    decide_eq_true_eq, hiff]
  omega

theorem host (h : Inv b n s) (len info : ℕ) : Inv b n (s.host len info) := by
  have hle := h.read_le
  have hroom := h.room
  rw [Ctrl.host]
  dsimp only
  split
  · rename_i hcond
    have hne := hcond.2
    rw [h.num, h.write, h.readIdx, succ_mod, ne_comm, ne_eq, Nat.add_assoc,
      mod_eq_mod_iff_lap h.pos (by omega) (by omega)] at hne
    refine ⟨h.pos, h.num, by dsimp only; omega, by dsimp only; omega, ?_, h.readIdx, fun hm => ?_, .inr (.inl rfl)⟩
    · simp only [h.num, h.write, succ_mod, Nat.add_assoc]
    · have := h.place hm
      dsimp only
      omega
  · exact h

/-- An interrupt or the timer: a ring that is not empty gets its bit. -/
theorem tickle (h : Inv b n s) (f2a irq : Bool) : Inv b n { s.tickleAllRings f2a with irq := irq } := by
  refine ⟨h.pos, h.num, h.read_le, h.room, h.write, h.readIdx, h.place, ?_⟩
  by_cases he : s.ring.ringEmpty = true
  · exact .inl (h.empty_iff.mp he)
  · exact .inr (.inr (.inl (by simp [tickleAllRings, he])))

/-- Fields that the wakeups do not depend on. -/
theorem other (h : Inv b n s) (bits : Bits) (timer : Bool) (hb : s.bits.a2f = true → bits.a2f = true) :
    Inv b n { s with bits := bits, timer := timer } := by
  refine ⟨h.pos, h.num, h.read_le, h.room, h.write, h.readIdx, h.place, ?_⟩
  rcases h.wake with hw | hw | hw | hw
  · exact .inl hw
  · exact .inr (.inl hw)
  · exact .inr (.inr (.inl (hb hw)))
  · exact .inr (.inr (.inr hw))

/-- The task moves. -/
theorem moved (h : Inv b n s) (t : CtrlTask) (bits : Bits) (timer : Bool)
    (hp : t.AtMessage → s.read < s.written)
    (hw : s.read = s.written ∨ s.irq = true ∨ bits.a2f = true ∨ t.Looking) :
    Inv b n { s with bits := bits, timer := timer, task := t } :=
  ⟨h.pos, h.num, h.read_le, h.room, h.write, h.readIdx, hp, hw⟩

theorem nextReadElem_none_iff (h : Inv b n s) : s.ring.a2fNextReadElem = none ↔ s.read = s.written := by
  rw [← h.empty_iff, RingCtx.a2fNextReadElem, RingCtx.a2fGetReadIdx, Option.map_eq_none_iff]
  by_cases he : s.ring.ringEmpty = true
  · simp [he]
  · rw [if_neg he]
    split <;> simp [he]

/-- A message is marked as read; another one in the ring has a wakeup of its own. -/
theorem marked (h : Inv b n s) (v : Bits) (hm : s.read < s.written)
    (hcalm : s.ring.writeIdx = (s.ring.readIdx + 1) % s.ring.ringNumElem ∨ s.irq = true ∨ s.bits.a2f = true) :
    Inv b n { s with ring := s.ring.a2fMarkAsRead 1, task := .refill v, read := s.read + 1 } := by
  have hroom := h.room
  refine ⟨h.pos, h.num, hm, by dsimp only; omega, h.write, ?_, fun hp => hp.elim, ?_⟩
  · simp only [RingCtx.a2fMarkAsRead, h.num, h.readIdx, succ_mod, Nat.add_assoc]
  · rcases hcalm with hlast | hirq | hbit
    · rw [h.num, h.write, h.readIdx, succ_mod, eq_comm, Nat.add_assoc,
        mod_eq_mod_iff_lap h.pos (by omega) (by omega)] at hlast
      exact .inl (by dsimp only; omega)
    · exact .inr (.inl hirq)
    · exact .inr (.inr (.inl hbit))

/-- Away from the ring, the task leaves the wakeups as they are. -/
theorem awake (h : Inv b n s) (hw : ¬ s.task.Looking) (t : CtrlTask) :
    s.read = s.written ∨ s.irq = true ∨ s.bits.a2f = true ∨ t.Looking := by
  rcases h.wake with hk | hk | hk | hk
  · exact .inl hk
  · exact .inr (.inl hk)
  · exact .inr (.inr (.inl hk))
  · exact absurd hk hw

/-- The refill touches the elements only. -/
theorem refilled (h : Inv b n s) (v : Bits) (size alloc : ℕ) (hw : ¬ s.task.Looking) :
    Inv b n { s with ring := s.ring.a2fRefillNextEmptyElem size alloc, task := .f2a v } := by
  have hring : (s.ring.a2fRefillNextEmptyElem size alloc).ringNumElem = s.ring.ringNumElem ∧
      (s.ring.a2fRefillNextEmptyElem size alloc).writeIdx = s.ring.writeIdx ∧
      (s.ring.a2fRefillNextEmptyElem size alloc).readIdx = s.ring.readIdx := by
    rw [RingCtx.a2fRefillNextEmptyElem]
    split <;> exact ⟨rfl, rfl, rfl⟩
  obtain ⟨hnum, hwrite, hread⟩ := hring
  refine ⟨h.pos, hnum ▸ h.num, h.read_le, h.room, hwrite ▸ h.write, hread ▸ h.readIdx, fun hp => hp.elim,
    h.awake hw _⟩

theorem handleTasks (h : Inv b n s) {ok : Bool} {alloc : ℕ} {timer : Bool} (hcalm : s.Calm (.task ok alloc timer)) :
    Inv b n (s.handleTasks ok alloc timer) := by
  have hp := h.place
  rw [Ctrl.handleTasks]
  cases hc : s.task with
  | wait =>
    dsimp only
    split
    · exact h
    · -- the bits that are taken are the ones the task looks at
      refine h.moved _ _ _ (fun hm => hm.elim) ?_
      rcases h.wake with hk | hk | hk | hk
      · exact .inl hk
      · exact .inr (.inl hk)
      · exact .inr (.inr (.inr hk))
      · rw [hc] at hk
        exact hk.elim
  | a2f v =>
    dsimp only
    split
    · rename_i hv
      cases hnext : s.ring.a2fNextReadElem with
      | none => exact h.moved _ _ _ (fun hm => hm.elim) (.inl (h.nextReadElem_none_iff.mp hnext))
      | some idx =>
        refine h.moved _ _ _ (fun _ => lt_of_le_of_ne h.read_le fun he => ?_) (.inr (.inr (.inr trivial)))
        rw [h.nextReadElem_none_iff.mpr he] at hnext
        exact Option.some_ne_none _ hnext.symm
    · rename_i hv
      exact h.moved _ _ _ (fun hm => hm.elim) (h.awake (by rw [hc]; exact hv) _)
  | post v idx =>
    rw [hc] at hp
    simp only [Calm, hc] at hcalm
    dsimp only
    split
    · exact h.moved _ _ _ (fun _ => hp trivial) (.inr (.inr (.inr trivial)))
    · rename_i hok
      exact h.moved _ _ _ (fun hm => hm.elim) (.inr (hcalm.resolve_left hok |>.imp_right .inl))
  | mark v =>
    rw [hc] at hp
    simp only [Calm, hc] at hcalm
    exact h.marked v (hp trivial) hcalm
  | refill v => exact h.refilled v _ _ (by simp [hc, CtrlTask.Looking])
  | f2a v => exact h.moved _ _ _ (fun hm => hm.elim) (h.awake (by simp [hc, CtrlTask.Looking]) _)
  | queue v => exact h.moved _ _ _ (fun hm => hm.elim) (h.awake (by simp [hc, CtrlTask.Looking]) _)

theorem act (h : Inv b n s) {a : CtrlAct} (hcalm : s.Calm a) : Inv b n (s.act a) := by
  cases a with
  | host len info => exact h.host len info
  | interrupt f2a => exact h.tickle f2a false
  | timer f2a =>
    rw [Ctrl.act]
    split
    · exact h.tickle f2a s.irq
    · exact h
  | setTimer on => exact h.other _ _ id
  | send => exact h.other _ _ id
  | task ok alloc timer => exact h.handleTasks hcalm

end Inv

/-- No wakeup is lost as long as each message the task takes is the only one in the ring and can be posted, or an
    interrupt or another notification is still to come: whenever the task waits and every interrupt is
    delivered, the ring is empty, or a notification bit or the timer is pending. -/
theorem no_lost_wakeup {n w size : ℕ} {elem : ℕ → Element} (hn : 0 < n) {s : Ctrl}
    (h : Reach CalmStep (create n w elem size) s) (hw : s.task = .wait) (hi : s.irq = false) :
    s.ring.ringEmpty = true ∨ s.bits ≠ .none ∨ s.timer = true := by
  have hinv : Inv (create n w elem size).ring.writeIdx n s :=
    h.inv (inv_create hn w elem size) (by rintro x _ ⟨a, hcalm, rfl⟩ hx; exact hx.act hcalm)
  rcases hinv.wake with hk | hk | hk | hk
  · exact .inl (hinv.empty_iff.mpr hk)
  · exact absurd hk (by simp [hi])
  · refine .inr (.inl fun hb => ?_)
    rw [hb] at hk
    exact Bool.false_ne_true hk
  · rw [hw] at hk
    exact hk.elim

/-- A message and its interrupt: the task takes the message, marks it as read and waits again. -/
theorem no_lost_wakeup_of_one :
    let s := [.host 8 1, .interrupt false, .task true 32 false, .task true 32 false, .task true 32 false,
      .task true 32 false, .task true 32 false, .task true 32 false, .task true 32 false].foldl act
        (create 16 0 (fun _ => ⟨16, 256, 0, 16⟩) 256)
    s.ring.readIdx = 1 ∧ (s.ring.ringEmpty = true ∨ s.bits ≠ .none ∨ s.timer = true) := by
  refine ⟨by decide +kernel, no_lost_wakeup (by decide) (Along.reach (P := Calm) ?_) (by decide +kernel)
    (by decide +kernel)⟩
  refine ⟨trivial, trivial, trivial, trivial, .inl rfl, .inl ?_, trivial, trivial, trivial, trivial⟩
  decide +kernel

/-- Two messages under one interrupt: the task takes one of them and goes back to waiting. -/
theorem wakeup_lost : ¬ ∀ s, Reach Step (create 16 0 (fun _ => ⟨16, 256, 0, 16⟩) 256) s → s.task = .wait →
    s.irq = false → s.ring.ringEmpty = true ∨ s.bits ≠ .none ∨ s.timer = true := by
  intro h
  have hrun := h _ (.foldl act _ [.host 8 1, .host 8 1, .interrupt false, .task true 32 false, .task true 32 false,
    .task true 32 false, .task true 32 false, .task true 32 false, .task true 32 false, .task true 32 false])
    (by decide +kernel) (by decide +kernel)
  exact absurd hrun (by decide +kernel)

end Ctrl

end Qcc730.Ring
