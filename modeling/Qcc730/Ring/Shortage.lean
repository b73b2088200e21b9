import Qcc730.Ring.A2f
import Qcc730.Ring.Control

/-! The buffers of the control ring.

    The firmware owes the host a buffer in each element that holds no message. `create_config_rings` fills the
    ring, and each message the task takes is followed by one refill, of the first element from the write index
    on that has no buffer. So a refill that misses is not caught up. And one whose allocation fails leaves the
    length it has written: from then on `ringif_refill_ctrl_elem` takes the element for one with a buffer and
    refuses it, and the host, which needs the buffer, never gets past it. -/

namespace Qcc730.Ring
open Lib

namespace RingCtx

/-- The loop of `ringif_a2f_refill_bufs` with `ringif_refill_ctrl_elem`, over at most `fuel` elements; `alloc` is
    what the allocation for each element returns. -/
def refillCtrlFrom (ctrlRingSize : ℕ) (alloc : ℕ → ℕ) : ℕ → ℕ → RingCtx → RingCtx
  | 0, _, c => c
  | fuel + 1, idx, c =>
    let next := fun c : RingCtx =>
      if (idx + 1) % c.ringNumElem = c.readIdx then c
      else refillCtrlFrom ctrlRingSize alloc fuel ((idx + 1) % c.ringNumElem) c
    if (c.elem idx).pBuf = 0 then
      match refillCtrlElem ctrlRingSize (alloc idx) (c.elem idx) with
      | (true, e) => next (c.setElem idx e)
      | (false, e) => c.setElem idx e
    else next c

/-- `ringif_a2f_refill_bufs` with `ringif_refill_ctrl_elem`. -/
def a2fRefillCtrlBufs (c : RingCtx) (ctrlRingSize : ℕ) (alloc : ℕ → ℕ) : RingCtx :=
  if c.ringFull then c else refillCtrlFrom ctrlRingSize alloc c.ringNumElem c.writeIdx c

/-- The element at `i` holds a message: it is in `[read, write)`, going round. -/
def Holds (c : RingCtx) (i : ℕ) : Prop :=
  if c.readIdx ≤ c.writeIdx then c.readIdx ≤ i ∧ i < c.writeIdx else c.readIdx ≤ i ∨ i < c.writeIdx

instance (c : RingCtx) (i : ℕ) : Decidable (c.Holds i) := by
  unfold Holds
  infer_instance

/-- Every element without a message holds a buffer. -/
def Stocked (c : RingCtx) : Prop := ∀ i < c.ringNumElem, ¬ c.Holds i → (c.elem i).Filled

instance (c : RingCtx) : Decidable c.Stocked := by
  unfold Stocked
  infer_instance

end RingCtx

namespace Ctrl

/-- `create_config_rings`. -/
def createConfigRings (numElem writeIdx ctrlRingSize : ℕ) (alloc : ℕ → ℕ) : Ctrl :=
  create numElem writeIdx ((RingCtx.createA2fRing numElem writeIdx).a2fRefillCtrlBufs ctrlRingSize alloc).elem
    ctrlRingSize

/-- When the task refills, the allocation succeeds and the ring is not full. -/
def Supplied (s : Ctrl) : CtrlAct → Prop
  | .task _ alloc _ =>
    match s.task with
    | .refill _ => alloc ≠ 0 ∧ s.ring.ringFull = false
    | _ => True
  | _ => True

end Ctrl

/-- Whether a message is marked as read and the refill that goes with it is still to come. -/
def CtrlTask.refills : CtrlTask → ℕ
  | .refill _ => 1
  | _ => 0

/-! ### Filling -/

/-- An element without a buffer and without a length is filled exactly when the allocation succeeds. -/
theorem refillCtrlElem_zero (size alloc : ℕ) :
    (refillCtrlElem size alloc .zero).1 = decide (alloc ≠ 0) ∧
      (alloc ≠ 0 → (refillCtrlElem size alloc .zero).2.Filled) ∧
      (alloc = 0 → (refillCtrlElem size alloc .zero).2.Empty) := by
  by_cases h : alloc = 0 <;> simp [refillCtrlElem, Element.zero, Element.Filled, Element.Empty, h]

/-- An element without a buffer stays so or is filled. -/
theorem refillCtrlElem_empty (size alloc : ℕ) {e : Element} (h : e.Empty) :
    (refillCtrlElem size alloc e).2.Filled ∨ (refillCtrlElem size alloc e).2.Empty := by
  rw [refillCtrlElem]
  split
  · exact .inr h
  · split
    · rename_i ha
      exact .inl ⟨ha, ha⟩
    · exact .inr h

theorem refillCtrlElem_failed (size : ℕ) {e : Element} (h : e.Empty) : (refillCtrlElem size 0 e).2.Empty := by
  rw [refillCtrlElem, if_neg (not_not.mpr rfl)]
  split <;> exact h

namespace RingCtx

variable {b n r : ℕ} {c : RingCtx}

/-- The loop fills the elements in order up to the first failure, and all of them if there is none. -/
theorem refillCtrlFrom_filledTo (size : ℕ) (alloc : ℕ → ℕ) (hb : b < n) (fuel : ℕ) : ∀ {k : ℕ} {c : RingCtx},
    k + fuel = n → 0 < fuel → FilledTo b n k c → (∀ j, k ≤ j → j < n → c.elem ((b + j) % n) = .zero) →
    ∃ m ≤ n, FilledTo b n m (refillCtrlFrom size alloc fuel ((b + k) % n) c) ∧
      (m = n ↔ ∀ j, k ≤ j → j < n → alloc ((b + j) % n) ≠ 0) := by
  induction fuel with
  | zero => intro k c _ h0; omega
  | succ fuel ih =>
    intro k c hk _ h hz
    obtain ⟨hok, hfilled, hempty⟩ := refillCtrlElem_zero size (alloc ((b + k) % n))
    have hzero := hz k le_rfl (by omega)
    have hrest : ∀ e j, k + 1 ≤ j → j < n → (c.setElem ((b + k) % n) e).elem ((b + j) % n) = .zero := by
      intro e j hj hlt
      rw [setElem_elem_of_ne _ _ (mod_ne_mod_of_lt (by omega) (by omega)).symm]
      exact hz j (by omega) hlt
    rw [refillCtrlFrom, if_pos (by rw [hzero]; rfl)]
    dsimp only
    rw [hzero]
    by_cases ha : alloc ((b + k) % n) = 0
    · -- the first failure
      have hfalse : (refillCtrlElem size (alloc ((b + k) % n)) .zero).1 = false :=
        hok.trans (by simp [ha])
      generalize refillCtrlElem size (alloc ((b + k) % n)) .zero = r at *
      obtain ⟨ok, e⟩ := r
      obtain rfl : ok = false := hfalse
      dsimp only
      refine ⟨k, by omega, ⟨h.num, h.readIdx, h.writeIdx, fun j hj => ?_, fun j hj hlt => ?_⟩, ?_⟩
      · rw [setElem_elem_of_ne _ _ (mod_ne_mod_of_lt (by omega) (by omega))]
        exact h.below j hj
      · rcases Nat.lt_or_eq_of_le hj with hlt' | rfl
        · rw [hrest _ j hlt' hlt]
          exact Element.zero_empty
        · rw [setElem_elem_self]
          exact hempty ha
      · constructor
        · intro he
          omega
        · intro hall
          exact absurd ha (hall k le_rfl (by omega))
    · have htrue : (refillCtrlElem size (alloc ((b + k) % n)) .zero).1 = true :=
        hok.trans (by simp [ha])
      have he := hfilled ha
      generalize refillCtrlElem size (alloc ((b + k) % n)) .zero = r at *
      obtain ⟨ok, e⟩ := r
      obtain rfl : ok = true := htrue
      have hs := h.succ (by omega) ⟨e, he⟩
      have hlap := mod_eq_mod_iff_lap (n := n) (x := b) (y := b + (k + 1)) (by omega) (by omega) (by omega)
      rw [Nat.mod_eq_of_lt hb, eq_comm] at hlap
      dsimp only at hs ⊢
      simp only [hs.num, hs.readIdx, succ_mod, Nat.add_assoc, hlap]
      have hfrom : (∀ j, k ≤ j → j < n → alloc ((b + j) % n) ≠ 0) ↔
          ∀ j, k + 1 ≤ j → j < n → alloc ((b + j) % n) ≠ 0 := by
        constructor
        · intro hall j hj
          exact hall j (by omega)
        · intro hall j hj hlt
          rcases Nat.lt_or_eq_of_le hj with hlt' | rfl
          · exact hall j hlt' hlt
          · exact ha
      by_cases hend : b + (k + 1) = b ∨ b + (k + 1) = b + n
      · rw [if_pos hend]
        refine ⟨k + 1, by omega, hs, ⟨fun _ => hfrom.mpr fun j hj hlt => ?_, fun _ => by omega⟩⟩
        omega
      · rw [if_neg hend, hfrom]
        exact ih (by omega) (by omega) hs (hrest e)

/-- The ring after `create_config_rings`. -/
theorem createA2fRing_refillCtrl (hn : 2 ≤ n) (w size : ℕ) (alloc : ℕ → ℕ) :
    ∃ m ≤ n, FilledTo (createA2fRing n w).writeIdx n m ((createA2fRing n w).a2fRefillCtrlBufs size alloc) ∧
      (m = n ↔ ∀ i < n, alloc i ≠ 0) := by
  set b := (createA2fRing n w).writeIdx with hb
  have hlt : b < n := createA2fRing_lt (by omega) w
  have hnew : FilledTo b n 0 (createA2fRing n w) :=
    ⟨rfl, rfl, rfl, by simp, fun _ _ _ => Element.zero_empty⟩
  obtain ⟨m, hm, hto, hall⟩ := refillCtrlFrom_filledTo size alloc hlt n (k := 0) (by omega) (by omega) hnew
    fun _ _ _ => rfl
  rw [Nat.add_zero, Nat.mod_eq_of_lt hlt] at hto
  refine ⟨m, hm, ?_, hall.trans ⟨fun h i hi => ?_, fun h j _ _ => ?_⟩⟩
  · rw [a2fRefillCtrlBufs, createA2fRing_not_full hn]
    exact hto
  · obtain ⟨j, -, hj, rfl⟩ := exists_counter (b := b) (x := 0) hi
    exact h j (by omega) (by omega)
  · exact h _ (Nat.mod_lt _ (by omega))

/-! ### The next empty element -/

/-- An element that is found has no buffer, and lies between the write index and the read index. -/
theorem emptyElemFrom_some (hnum : c.ringNumElem = n) (hr : c.readIdx = (b + r) % n) (fuel : ℕ) : ∀ {j i : ℕ},
    r ≤ j → j < r + n → c.emptyElemFrom fuel ((b + j) % n) = some i →
    ∃ k, j ≤ k ∧ k < r + n ∧ i = (b + k) % n ∧ (c.elem i).pBuf = 0 := by
  induction fuel with
  | zero => intro j i _ _ h; exact nomatch h
  | succ fuel ih =>
    intro j i hj hlt h
    rw [emptyElemFrom] at h
    split at h
    · rename_i hp
      obtain rfl := Option.some.inj h
      exact ⟨j, le_rfl, hlt, rfl, hp⟩
    · have hlap := mod_eq_mod_iff_lap (n := n) (x := b + r) (y := b + (j + 1)) (by omega) (by omega) (by omega)
      rw [hnum, hr, succ_mod, Nat.add_assoc] at h
      split at h
      · exact nomatch h
      · rename_i hne
        rw [eq_comm, hlap] at hne
        obtain ⟨k, hk, hrest⟩ := ih (by omega) (by omega) h
        exact ⟨k, by omega, hrest⟩

/-- When none is found, every one of them has a buffer. -/
theorem emptyElemFrom_none (hnum : c.ringNumElem = n) (hr : c.readIdx = (b + r) % n) (fuel : ℕ) : ∀ {j : ℕ},
    r ≤ j → j < r + n → r + n ≤ j + fuel → c.emptyElemFrom fuel ((b + j) % n) = none →
    ∀ k, j ≤ k → k < r + n → (c.elem ((b + k) % n)).pBuf ≠ 0 := by
  induction fuel with
  | zero => intro j _ hlt hf; omega
  | succ fuel ih =>
    intro j hj hlt hf h k hk hkn
    rw [emptyElemFrom] at h
    split at h
    · exact nomatch h
    · rename_i hp
      have hlap := mod_eq_mod_iff_lap (n := n) (x := b + r) (y := b + (j + 1)) (by omega) (by omega) (by omega)
      rcases Nat.lt_or_eq_of_le hk with hlt' | rfl
      · rw [hnum, hr, succ_mod, Nat.add_assoc, if_neg (fun he => by have := hlap.mp he.symm; omega)] at h
        exact ih (by omega) (by omega) (by omega) h k hlt' hkn
      · exact hp

end RingCtx

/-! ### What the elements are when the task is at work -/

namespace Ctrl

/-- The host may still write to the elements from the write index up to the read index. Each of them has a
    buffer or has none, and the one that was marked as read last is zeroed. -/
structure Stock (b n : ℕ) (s : Ctrl) : Prop where
  place : Inv b n { s with irq := true }
  whole : ∀ j, s.written ≤ j → j < s.read + n →
    (s.ring.elem ((b + j) % n)).Filled ∨ (s.ring.elem ((b + j) % n)).Empty
  marked : s.task.refills = 1 → ∀ j, j + 1 = s.read + n → s.ring.elem ((b + j) % n) = .zero

/-- Each of them has a buffer, the one apart that is refilled next. -/
def Full (b n : ℕ) (s : Ctrl) : Prop :=
  ∀ j, s.written ≤ j → j + s.task.refills < s.read + n → (s.ring.elem ((b + j) % n)).Filled

/-- One of them, and not the one that is refilled next, has none. -/
def Short (b n : ℕ) (s : Ctrl) : Prop :=
  ∃ j, s.written ≤ j ∧ j + s.task.refills < s.read + n ∧ (s.ring.elem ((b + j) % n)).Empty

/-- The one at `j` has no buffer and a length. -/
structure Stuck (b n j : ℕ) (s : Ctrl) : Prop where
  ahead : s.written ≤ j
  inRing : j < s.read + n
  empty : (s.ring.elem ((b + j) % n)).Empty
  len : (s.ring.elem ((b + j) % n)).len ≠ 0

/-- What the elements depend on is as before. -/
structure Same (s t : Ctrl) : Prop where
  elem : t.ring.elem = s.ring.elem
  written : t.written = s.written
  read : t.read = s.read
  refills : t.task.refills = s.task.refills

/-- The host writes a message into an element with a buffer. -/
structure Writes (b n : ℕ) (s t : Ctrl) : Prop where
  elem : ∃ e, t.ring.elem = (s.ring.setElem ((b + s.written) % n) e).elem
  buffer : (s.ring.elem ((b + s.written) % n)).pBuf ≠ 0
  written : t.written = s.written + 1
  read : t.read = s.read
  refills : t.task.refills = s.task.refills

/-- The task marks a message as read. -/
structure Marks (b n : ℕ) (s t : Ctrl) : Prop where
  pending : s.read < s.written
  elem : t.ring.elem = (s.ring.setElem ((b + s.read) % n) .zero).elem
  written : t.written = s.written
  read : t.read = s.read + 1
  refills : s.task.refills = 0 ∧ t.task.refills = 1

/-- The task refills, with what the allocation returns. -/
structure Refills (alloc : ℕ) (s t : Ctrl) : Prop where
  elem : t.ring.elem = (s.ring.a2fRefillNextEmptyElem s.ctrlRingSize alloc).elem
  written : t.written = s.written
  read : t.read = s.read
  refills : s.task.refills = 1 ∧ t.task.refills = 0

variable {b n : ℕ} {s : Ctrl}

theorem setElem_elem_eq_mark (c : RingCtx) : (c.a2fMarkAsRead 1).elem = (c.setElem c.readIdx .zero).elem := by
  rw [RingCtx.a2fMarkAsRead_eq]
  rfl

theorem refills_of {v : Bits} (hv : s.task = .refill v) (ok : Bool) (alloc : ℕ) (timer : Bool) :
    Refills alloc s (s.handleTasks ok alloc timer) := by
  simp only [handleTasks, hv]
  exact ⟨rfl, rfl, rfl, by rw [hv]; rfl, rfl⟩

/-- The next statement of the task. -/
theorem handleTasks_cases (h : Inv b n { s with irq := true }) (ok : Bool) (alloc : ℕ) (timer : Bool) :
    Same s (s.handleTasks ok alloc timer) ∨ Marks b n s (s.handleTasks ok alloc timer) ∨
      (∃ v, s.task = .refill v) ∧ Refills alloc s (s.handleTasks ok alloc timer) := by
  cases hc : s.task with
  | wait =>
    refine .inl ?_
    simp only [handleTasks, hc]
    split
    · exact ⟨rfl, rfl, rfl, rfl⟩
    · exact ⟨rfl, rfl, rfl, by rw [hc]; rfl⟩
  | a2f v =>
    refine .inl ?_
    simp only [handleTasks, hc]
    split
    · split <;> exact ⟨rfl, rfl, rfl, by rw [hc]; rfl⟩
    · exact ⟨rfl, rfl, rfl, by rw [hc]; rfl⟩
  | post v idx =>
    refine .inl ?_
    simp only [handleTasks, hc]
    split <;> exact ⟨rfl, rfl, rfl, by rw [hc]; rfl⟩
  | mark v =>
    refine .inr (.inl ?_)
    have hread : s.ring.readIdx = (b + s.read) % n := h.readIdx
    have hpending : s.read < s.written := h.place (by simp [hc, CtrlTask.AtMessage])
    simp only [handleTasks, hc]
    refine ⟨hpending, ?_, rfl, rfl, by rw [hc]; rfl, rfl⟩
    rw [← hread]
    exact setElem_elem_eq_mark s.ring
  | refill v =>
    exact .inr (.inr ⟨⟨v, rfl⟩, refills_of hc ok alloc timer⟩)
  | f2a v =>
    refine .inl ?_
    simp only [handleTasks, hc]
    exact ⟨rfl, rfl, rfl, by rw [hc]; rfl⟩
  | queue v =>
    refine .inl ?_
    simp only [handleTasks, hc]
    exact ⟨rfl, rfl, rfl, by rw [hc]; rfl⟩

/-- What an action does to the elements. -/
theorem act_cases (h : Inv b n { s with irq := true }) (a : CtrlAct) :
    Same s (s.act a) ∨ Writes b n s (s.act a) ∨ Marks b n s (s.act a) ∨
      ∃ ok alloc timer v, a = .task ok alloc timer ∧ s.task = .refill v ∧ Refills alloc s (s.act a) := by
  cases a with
  | host len info =>
    have hw : s.ring.writeIdx = (b + s.written) % n := h.write
    simp only [act, host, hw]
    split
    · rename_i hcond
      exact .inr (.inl ⟨⟨_, rfl⟩, hcond.1, rfl, rfl, rfl⟩)
    · exact .inl ⟨rfl, rfl, rfl, rfl⟩
  | interrupt f2a => exact .inl ⟨rfl, rfl, rfl, rfl⟩
  | timer f2a =>
    simp only [act]
    split <;> exact .inl ⟨rfl, rfl, rfl, rfl⟩
  | setTimer on => exact .inl ⟨rfl, rfl, rfl, rfl⟩
  | send => exact .inl ⟨rfl, rfl, rfl, rfl⟩
  | task ok alloc timer =>
    rcases handleTasks_cases h ok alloc timer with hs | hm | ⟨⟨v, hv⟩, hr⟩
    · exact .inl hs
    · exact .inr (.inr (.inl hm))
    · exact .inr (.inr (.inr ⟨ok, alloc, timer, v, rfl, hv, hr⟩))

theorem host_irq (s : Ctrl) (len info : ℕ) :
    { s.host len info with irq := true } = host { s with irq := true } len info := by
  simp only [host]
  split <;> rfl

theorem handleTasks_irq (s : Ctrl) (ok : Bool) (alloc : ℕ) (timer : Bool) :
    { s.handleTasks ok alloc timer with irq := true } = handleTasks { s with irq := true } ok alloc timer := by
  simp only [handleTasks]
  cases hc : s.task with
  | wait =>
    dsimp only
    split
    · rw [hc]
    · rfl
  | a2f v =>
    dsimp only
    split
    · cases s.ring.a2fNextReadElem <;> rfl
    · rfl
  | post v idx =>
    dsimp only
    split <;> rfl
  | mark v | refill v | f2a v | queue v => rfl

/-- The indices do not depend on the wakeups: with an interrupt pending all the time every step is calm. -/
theorem place_act (h : Inv b n { s with irq := true }) (a : CtrlAct) : Inv b n { s.act a with irq := true } := by
  cases a with
  | host len info =>
    rw [act, host_irq]
    exact h.host len info
  | interrupt f2a => exact h.tickle f2a true
  | timer f2a =>
    rw [act]
    split
    · exact h.tickle f2a true
    · exact h
  | setTimer on => exact h.other s.bits on id
  | send => exact h.other { s.bits with queue := true } s.timer id
  | task ok alloc timer =>
    rw [act, handleTasks_irq]
    refine h.handleTasks ?_
    simp only [Calm]
    split <;> simp

/-- What the refill does: nothing, when the ring is full or no element is without a buffer, or else it tries one that
    is. -/
theorem refill_cases (h : Stock b n s) (alloc : ℕ) :
    ((s.ring.a2fRefillNextEmptyElem s.ctrlRingSize alloc).elem = s.ring.elem ∧
      (s.ring.ringFull = true ∨
        ∀ k, s.written ≤ k → k < s.read + n → (s.ring.elem ((b + k) % n)).pBuf ≠ 0)) ∨
    ∃ k, s.written ≤ k ∧ k < s.read + n ∧ (s.ring.elem ((b + k) % n)).Empty ∧
      (s.ring.a2fRefillNextEmptyElem s.ctrlRingSize alloc).elem = (s.ring.setElem ((b + k) % n)
        (refillCtrlElem s.ctrlRingSize alloc (s.ring.elem ((b + k) % n))).2).elem := by
  have hnum : s.ring.ringNumElem = n := h.place.num
  have hread : s.ring.readIdx = (b + s.read) % n := h.place.readIdx
  have hwrite : s.ring.writeIdx = (b + s.written) % n := h.place.write
  have hle : s.read ≤ s.written := h.place.read_le
  have hroom : s.written < s.read + n := h.place.room
  rw [RingCtx.a2fRefillNextEmptyElem, RingCtx.a2fGetNextEmptyElem, hnum, hwrite]
  by_cases hf : s.ring.ringFull = true
  · rw [if_pos hf]
    exact .inl ⟨rfl, .inl hf⟩
  · rw [if_neg hf]
    cases he : s.ring.emptyElemFrom n ((b + s.written) % n) with
    | none => exact .inl ⟨rfl, .inr (RingCtx.emptyElemFrom_none hnum hread n hle hroom (by omega) he)⟩
    | some i =>
      obtain ⟨k, hk, hkn, rfl, hp⟩ := RingCtx.emptyElemFrom_some hnum hread n hle hroom he
      exact .inr ⟨k, hk, hkn, (h.whole k hk hkn).resolve_left fun hfill => hfill.1 hp, rfl⟩

/-- The element that was marked as read last. -/
theorem Stock.last (h : Stock b n s) (hr : s.task.refills = 1) :
    ∃ l, s.written ≤ l ∧ l + 1 = s.read + n ∧ s.ring.elem ((b + l) % n) = .zero := by
  have hroom : s.written < s.read + n := h.place.room
  exact ⟨s.read + n - 1, by omega, by omega, h.marked hr _ (by omega)⟩

/-! ### Every step -/

section Steps

variable {t : Ctrl} {alloc j : ℕ}

theorem Writes.elem_eq (h : Stock b n s) (hw : Writes b n s t) (hj : t.written ≤ j) (hlt : j < t.read + n) :
    t.ring.elem ((b + j) % n) = s.ring.elem ((b + j) % n) := by
  obtain ⟨e, he⟩ := hw.elem
  have hle : s.read ≤ s.written := h.place.read_le
  have hroom : s.written < s.read + n := h.place.room
  have hwritten := hw.written
  have hread := hw.read
  rw [he]
  exact s.ring.setElem_elem_of_lap e (show s.read ≤ j by omega) (by omega) hle hroom (by omega)

theorem Marks.elem_eq (h : Stock b n s) (hm : Marks b n s t) (hj : t.written ≤ j) (hlt : j < s.read + n) :
    t.ring.elem ((b + j) % n) = s.ring.elem ((b + j) % n) := by
  have hpos := h.place.pos
  have hwritten := hm.written
  have hpending := hm.pending
  rw [hm.elem]
  exact s.ring.setElem_elem_of_lap .zero (show s.read ≤ j by omega) hlt le_rfl (by omega) (by omega)

theorem Marks.elem_last (hm : Marks b n s t) (hj : j + 1 = t.read + n) : t.ring.elem ((b + j) % n) = .zero := by
  have hread := hm.read
  obtain rfl : j = s.read + n := by omega
  rw [hm.elem, ← Nat.add_assoc, Nat.add_mod_right]
  exact s.ring.setElem_elem_self _ _

/-- The refill, element by element: one element without a buffer at most changes, and it gets a buffer or none. -/
theorem Refills.elem_cases (h : Stock b n s) (hr : Refills alloc s t) :
    ((∀ j, s.written ≤ j → j < s.read + n → t.ring.elem ((b + j) % n) = s.ring.elem ((b + j) % n)) ∧
      (s.ring.ringFull = true ∨
        ∀ j, s.written ≤ j → j < s.read + n → (s.ring.elem ((b + j) % n)).pBuf ≠ 0)) ∨
    ∃ k, s.written ≤ k ∧ k < s.read + n ∧ (s.ring.elem ((b + k) % n)).Empty ∧
      t.ring.elem ((b + k) % n) = (refillCtrlElem s.ctrlRingSize alloc (s.ring.elem ((b + k) % n))).2 ∧
      ∀ j, s.written ≤ j → j < s.read + n → j ≠ k →
        t.ring.elem ((b + j) % n) = s.ring.elem ((b + j) % n) := by
  have hle : s.read ≤ s.written := h.place.read_le
  obtain ⟨he, hnone⟩ | ⟨k, hk, hkn, hempty, he⟩ := refill_cases h alloc
  · exact .inl ⟨fun j _ _ => by rw [hr.elem, he], hnone⟩
  · refine .inr ⟨k, hk, hkn, hempty, ?_, fun j hj hlt hne => ?_⟩
    · rw [hr.elem, he]
      exact s.ring.setElem_elem_self _ _
    · rw [hr.elem, he]
      exact s.ring.setElem_elem_of_lap _ (hle.trans hj) hlt (hle.trans hk) hkn hne

/-- A refill that finds room finds an element: the one that was marked as read last has no buffer. -/
theorem Refills.found (h : Stock b n s) (hr : Refills alloc s t) (hf : s.ring.ringFull = false) :
    ∃ k, s.written ≤ k ∧ k < s.read + n ∧ (s.ring.elem ((b + k) % n)).Empty ∧
      t.ring.elem ((b + k) % n) = (refillCtrlElem s.ctrlRingSize alloc (s.ring.elem ((b + k) % n))).2 ∧
      ∀ j, s.written ≤ j → j < s.read + n → j ≠ k →
        t.ring.elem ((b + j) % n) = s.ring.elem ((b + j) % n) := by
  obtain ⟨-, hfull | hnone⟩ | hfound := hr.elem_cases h
  · rw [hf] at hfull
    exact absurd hfull Bool.false_ne_true
  · obtain ⟨l, hl, hln, hlast⟩ := h.last hr.refills.1
    exact absurd (by rw [hlast]; rfl) (hnone l hl (by omega))
  · exact hfound

theorem Stock.act (h : Stock b n s) (a : CtrlAct) : Stock b n (s.act a) := by
  have hplace := place_act h.place a
  obtain hs | hw | hm | ⟨ok, alloc, timer, v, rfl, hv, hr⟩ := act_cases h.place a
  · refine ⟨hplace, ?_, ?_⟩
    · rw [hs.elem, hs.written, hs.read]
      exact h.whole
    · rw [hs.elem, hs.read, hs.refills]
      exact h.marked
  · have hwritten := hw.written
    have hread := hw.read
    refine ⟨hplace, fun j hj hlt => ?_, fun hone j hj => ?_⟩
    · rw [hw.elem_eq h hj hlt]
      exact h.whole j (by omega) (by omega)
    · have hroom : (s.act a).written < (s.act a).read + n := hplace.room
      rw [hw.elem_eq h (by omega) (by omega)]
      exact h.marked (by rw [← hw.refills]; exact hone) j (by omega)
  · have hwritten := hm.written
    have hread := hm.read
    refine ⟨hplace, fun j hj hlt => ?_, fun _ j hj => hm.elem_last hj⟩
    by_cases hlast : j + 1 = (s.act a).read + n
    · rw [hm.elem_last hlast]
      exact .inr Element.zero_empty
    · rw [hm.elem_eq h hj (by omega)]
      exact h.whole j (by omega) (by omega)
  · have hone := hr.refills.2
    refine ⟨hplace, ?_, fun h1 => by omega⟩
    rw [hr.written, hr.read]
    intro j hj hlt
    obtain ⟨hsame, -⟩ | ⟨k, -, -, hempty, hself, hother⟩ := hr.elem_cases h
    · rw [hsame j hj hlt]
      exact h.whole j hj hlt
    · by_cases hne : j = k
      · subst hne
        rw [hself]
        exact refillCtrlElem_empty _ _ hempty
      · rw [hother j hj hlt hne]
        exact h.whole j hj hlt

/-- A shortage stays: a refill fills one element, and each refill comes with an element that was marked as read. -/
theorem Short.act (h : Stock b n s) (hshort : Short b n s) (a : CtrlAct) : Short b n (s.act a) := by
  obtain ⟨j, hj, hlt, hempty⟩ := hshort
  obtain hs | hw | hm | ⟨ok, alloc, timer, v, rfl, hv, hr⟩ := act_cases h.place a
  · exact ⟨j, by rw [hs.written]; exact hj, by rw [hs.read, hs.refills]; exact hlt, by rw [hs.elem]; exact hempty⟩
  · have hwritten := hw.written
    have hread := hw.read
    have hrefills := hw.refills
    -- the host cannot write to an element without a buffer
    have hne : j ≠ s.written := by
      rintro rfl
      exact hw.buffer hempty.1
    exact ⟨j, by omega, by omega, by rw [hw.elem_eq h (by omega) (by omega)]; exact hempty⟩
  · have hwritten := hm.written
    have hread := hm.read
    obtain ⟨hzero, hone⟩ := hm.refills
    exact ⟨j, by omega, by omega, by rw [hm.elem_eq h (by omega) (by omega)]; exact hempty⟩
  · obtain ⟨hone, hzero⟩ := hr.refills
    have hwritten := hr.written
    have hread := hr.read
    obtain ⟨hsame, -⟩ | ⟨k, hk, hkn, -, -, hother⟩ := hr.elem_cases h
    · exact ⟨j, by omega, by omega, by rw [hsame j hj (by omega)]; exact hempty⟩
    · by_cases hne : j = k
      · -- this one is tried, and the one that was marked as read stays without a buffer
        obtain ⟨l, hl, hln, hlast⟩ := h.last hone
        exact ⟨l, by omega, by omega,
          by rw [hother l hl (by omega) (by omega), hlast]; exact Element.zero_empty⟩
      · exact ⟨j, by omega, by omega, by rw [hother j hj (by omega) hne]; exact hempty⟩

theorem not_supplied {a : CtrlAct} (h : ¬ s.Supplied a) :
    ∃ ok alloc timer v, a = .task ok alloc timer ∧ s.task = .refill v ∧ (alloc = 0 ∨ s.ring.ringFull = true) := by
  cases a with
  | task ok alloc timer =>
    cases hc : s.task with
    | refill v =>
      simp only [Supplied, hc, not_and_or, not_not, Bool.not_eq_false] at h
      exact ⟨ok, alloc, timer, v, rfl, rfl, h⟩
    | wait | a2f _ | post _ _ | mark _ | f2a _ | queue _ => exact absurd (by simp [Supplied, hc]) h
  | host _ _ | interrupt _ | timer _ | setTimer _ | send => exact absurd trivial h

/-- A refill that misses leaves a shortage: the element that was marked as read stays without a buffer. -/
theorem short_of_missed (h : Stock b n s) {a : CtrlAct} (ha : ¬ s.Supplied a) : Short b n (s.act a) := by
  obtain ⟨ok, alloc, timer, v, rfl, hv, hmiss⟩ := not_supplied ha
  have hr : Refills alloc s (s.act (.task ok alloc timer)) := refills_of hv ok alloc timer
  obtain ⟨hone, hzero⟩ := hr.refills
  have hwritten := hr.written
  have hread := hr.read
  obtain ⟨l, hl, hln, hlast⟩ := h.last hone
  refine ⟨l, by omega, by omega, ?_⟩
  obtain ⟨hsame, -⟩ | ⟨k, -, -, hempty, hself, hother⟩ := hr.elem_cases h
  · rw [hsame l hl (by omega), hlast]
    exact Element.zero_empty
  · by_cases hne : l = k
    · subst hne
      rcases hmiss with rfl | hfull
      · rw [hself]
        exact refillCtrlElem_failed _ hempty
      · -- a full ring is left as it is
        rw [hr.elem, RingCtx.a2fRefillNextEmptyElem, RingCtx.a2fGetNextEmptyElem, if_pos hfull]
        exact hempty
    · rw [hother l hl (by omega) hne, hlast]
      exact Element.zero_empty

/-- As long as no refill misses there is no shortage. -/
theorem Full.act (h : Stock b n s) (hfull : Full b n s) {a : CtrlAct} (ha : s.Supplied a) :
    Full b n (s.act a) := by
  intro j hj hlt
  obtain hs | hw | hm | ⟨ok, alloc, timer, v, rfl, hv, hr⟩ := act_cases h.place a
  · rw [hs.written] at hj
    rw [hs.read, hs.refills] at hlt
    rw [hs.elem]
    exact hfull j hj hlt
  · have hwritten := hw.written
    have hread := hw.read
    have hrefills := hw.refills
    rw [hw.elem_eq h hj (by omega)]
    exact hfull j (by omega) (by omega)
  · have hwritten := hm.written
    have hread := hm.read
    obtain ⟨hzero, hone⟩ := hm.refills
    rw [hm.elem_eq h hj (by omega)]
    exact hfull j (by omega) (by omega)
  · obtain ⟨hone, hzero⟩ := hr.refills
    have hwritten := hr.written
    have hread := hr.read
    obtain ⟨l, hl, hln, hlast⟩ := h.last hone
    simp only [Supplied, hv] at ha
    obtain ⟨k, hk, hkn, hempty, hself, hother⟩ := hr.found h ha.2
    -- the one that is found is the one that was marked as read
    obtain rfl : k = l := by
      by_contra hne
      exact (hfull k hk (by omega)).not_empty hempty
    by_cases hne : j = k
    · subst hne
      rw [hself, hlast]
      exact (refillCtrlElem_zero _ _).2.1 ha.1
    · rw [hother j (by omega) (by omega) hne]
      exact hfull j (by omega) (by omega)

end Steps

/-! ### Whole runs -/

theorem stock_foldl (h : Stock b n s) (as : List CtrlAct) : Stock b n (as.foldl act s) := by
  induction as generalizing s with
  | nil => exact h
  | cons a as ih => exact ih (h.act a)

theorem short_foldl (h : Stock b n s) (hshort : Short b n s) (as : List CtrlAct) : Short b n (as.foldl act s) := by
  induction as generalizing s with
  | nil => exact hshort
  | cons a as ih => exact ih (h.act a) (hshort.act h a)

/-- From a ring without a shortage: there is none exactly when no refill has missed. -/
theorem full_foldl_iff (h : Stock b n s) (hfull : Full b n s) (as : List CtrlAct) :
    ¬ Short b n (as.foldl act s) ↔ Along act Supplied s as := by
  induction as generalizing s with
  | nil =>
    refine iff_of_true ?_ trivial
    rintro ⟨j, hj, hlt, hempty⟩
    exact (hfull j hj hlt).not_empty hempty
  | cons a as ih =>
    rw [List.foldl_cons, Along]
    by_cases ha : s.Supplied a
    · rw [ih (h.act a) (hfull.act h ha), and_iff_right ha]
    · refine iff_of_false (not_not.mpr ?_) fun hall => ha hall.1
      exact short_foldl (h.act a) (short_of_missed h ha) as

/-! ### Without a message, with a buffer -/

/-- The elements of the host's messages are the ones from the read index on. -/
theorem holds_iff (h : Stock b n s) {j : ℕ} (hj : s.read ≤ j) (hlt : j < s.read + n) :
    s.ring.Holds ((b + j) % n) ↔ j < s.written := by
  have hread : s.ring.readIdx = (b + s.read) % n := h.place.readIdx
  have hwrite : s.ring.writeIdx = (b + s.written) % n := h.place.write
  have hle : s.read ≤ s.written := h.place.read_le
  have hroom : s.written < s.read + n := h.place.room
  have hr := Nat.mod_lt (b + s.read) h.place.pos
  have hi := mod_add_le (i := b + s.read) h.place.pos (show j - s.read ≤ n by omega)
  have hw := mod_add_le (i := b + s.read) h.place.pos (show s.written - s.read ≤ n by omega)
  rw [show b + s.read + (j - s.read) = b + j by omega] at hi
  rw [show b + s.read + (s.written - s.read) = b + s.written by omega] at hw
  rw [RingCtx.Holds, hread, hwrite]
  split at hi <;> split at hw <;> split <;> omega

theorem stocked_iff (h : Stock b n s) (ht : s.task.refills = 0) : s.ring.Stocked ↔ ¬ Short b n s := by
  have hnum : s.ring.ringNumElem = n := h.place.num
  have hle : s.read ≤ s.written := h.place.read_le
  constructor
  · rintro hstocked ⟨j, hj, hlt, hempty⟩
    have hnot : ¬ s.ring.Holds ((b + j) % n) := by
      rw [holds_iff h (by omega) (by omega)]
      omega
    have hin : (b + j) % n < s.ring.ringNumElem := by
      rw [hnum]
      exact Nat.mod_lt _ h.place.pos
    exact (hstocked _ hin hnot).not_empty hempty
  · intro hshort i hi hnot
    obtain ⟨j, hj, hlt, rfl⟩ := exists_counter (b := b) (x := s.read) (hnum ▸ hi)
    rw [holds_iff h hj hlt, not_lt] at hnot
    rcases h.whole j hnot hlt with hf | he
    · exact hf
    · exact absurd ⟨j, hnot, by omega, he⟩ hshort

/-- The ring that `create_config_rings` makes. -/
theorem stock_create (hn : 2 ≤ n) (w size : ℕ) (alloc : ℕ → ℕ) :
    let s := createConfigRings n w size alloc
    Stock (RingCtx.createA2fRing n w).writeIdx n s ∧
      ((∀ i < n, alloc i ≠ 0) → Full (RingCtx.createA2fRing n w).writeIdx n s) ∧
      (¬ (∀ i < n, alloc i ≠ 0) → Short (RingCtx.createA2fRing n w).writeIdx n s) := by
  obtain ⟨m, hm, hto, hall⟩ := RingCtx.createA2fRing_refillCtrl hn w size alloc
  have hinv := inv_create (show 0 < n by omega) w
    ((RingCtx.createA2fRing n w).a2fRefillCtrlBufs size alloc).elem size
  refine ⟨⟨?_, fun j _ hlt => ?_, fun h => nomatch h⟩, fun h j _ hlt => ?_, fun h => ?_⟩
  · exact ⟨hinv.pos, hinv.num, hinv.read_le, hinv.room, hinv.write, hinv.readIdx, hinv.place, .inr (.inl rfl)⟩
  · by_cases hjm : j < m
    · exact .inl (hto.below j hjm)
    · exact .inr (hto.above j (by omega) (by simpa [createConfigRings, create] using hlt))
  · obtain rfl := hall.mpr h
    exact hto.below j (by simpa [createConfigRings, create, CtrlTask.refills] using hlt)
  · have hlt : m < n := lt_of_le_of_ne hm fun he => h (hall.mp he)
    exact ⟨m, Nat.zero_le m, by simpa [createConfigRings, create, CtrlTask.refills] using hlt, hto.above m le_rfl hlt⟩

/-- Whatever the host sends and whenever it does, and whichever allocations fail: whenever the task is not about to
    refill, every element outside of `[read, write)` holds a buffer exactly when the first filling and every refill
    so far has had its buffer and room for it. A refill that misses is never made good. -/
theorem stocked_again_iff {n w size : ℕ} {alloc : ℕ → ℕ} (hn : 2 ≤ n) (as : List CtrlAct)
    (ht : ∀ v, (as.foldl act (createConfigRings n w size alloc)).task ≠ .refill v) :
    (as.foldl act (createConfigRings n w size alloc)).ring.Stocked ↔
      (∀ i < n, alloc i ≠ 0) ∧ Along act Supplied (createConfigRings n w size alloc) as := by
  obtain ⟨hstock, hfull, hshort⟩ := stock_create hn w size alloc
  have hzero : (as.foldl act (createConfigRings n w size alloc)).task.refills = 0 := by
    cases hc : (as.foldl act (createConfigRings n w size alloc)).task with
    | refill v => exact absurd hc (ht v)
    | wait | a2f _ | post _ _ | mark _ | f2a _ | queue _ => rfl
  rw [stocked_iff (stock_foldl hstock as) hzero]
  by_cases hall : ∀ i < n, alloc i ≠ 0
  · rw [full_foldl_iff hstock (hfull hall), and_iff_right hall]
  · exact iff_of_false (not_not.mpr (short_foldl hstock (hshort hall) as)) fun h => hall h.1

/-- A message that is taken and replaced. -/
theorem stocked_again_one :
    let s := createConfigRings 16 0 256 fun i => 16 + i
    let as : List CtrlAct := [.host 8 1, .interrupt false, .task true 32 false, .task true 32 false,
      .task true 32 false, .task true 32 false, .task true 32 false]
    (as.foldl act s).ring.Stocked ↔ (∀ i < 16, 16 + i ≠ 0) ∧ Along act Supplied s as :=
  stocked_again_iff (by decide) _ (fun v h => absurd h (by
    rw [show (List.foldl act (createConfigRings 16 0 256 fun i => 16 + i) [.host 8 1, .interrupt false,
      .task true 32 false, .task true 32 false, .task true 32 false, .task true 32 false,
      .task true 32 false]).task = .f2a ⟨true, false, false⟩ by decide +kernel]
    simp))

/-- One allocation fails, and all the later ones succeed: the next message does not bring the buffer back. -/
theorem not_stocked_again : ¬ ∀ (n w size : ℕ) (alloc : ℕ → ℕ) (as bs : List CtrlAct), 2 ≤ n →
    (∀ ok a timer, CtrlAct.task ok a timer ∈ bs → a ≠ 0) →
    (as.foldl act (createConfigRings n w size alloc)).read <
      ((as ++ bs).foldl act (createConfigRings n w size alloc)).read →
    ((as ++ bs).foldl act (createConfigRings n w size alloc)).task = .wait →
    ((as ++ bs).foldl act (createConfigRings n w size alloc)).ring.Stocked := by
  intro h
  have hrun := h 16 0 256 (fun i => 16 + i)
    (.host 8 1 :: .interrupt false :: List.replicate 7 (.task true 0 false))
    (.host 8 1 :: .interrupt false :: List.replicate 7 (.task true 32 false)) (by decide)
    (by simp +contextual) (by decide +kernel) (by decide +kernel)
  exact absurd hrun (by decide +kernel)

/-! ### For ever -/

theorem Stuck.act {j : ℕ} (h : Stock b n s) (hs : Stuck b n j s) (a : CtrlAct) : Stuck b n j (s.act a) := by
  obtain ⟨hj, hlt, hempty, hlen⟩ := hs
  obtain hsame | hw | hm | ⟨ok, alloc, timer, v, rfl, hv, hr⟩ := act_cases h.place a
  · exact ⟨hsame.written ▸ hj, hsame.read ▸ hlt, hsame.elem ▸ hempty, hsame.elem ▸ hlen⟩
  · have hwritten := hw.written
    have hread := hw.read
    have hne : j ≠ s.written := by
      rintro rfl
      exact hw.buffer hempty.1
    have he := hw.elem_eq h (show (s.act a).written ≤ j by omega) (by omega)
    exact ⟨by omega, by omega, by rw [he]; exact hempty, by rw [he]; exact hlen⟩
  · have hwritten := hm.written
    have hread := hm.read
    have he := hm.elem_eq h (show (s.act a).written ≤ j by omega) hlt
    exact ⟨by omega, by omega, by rw [he]; exact hempty, by rw [he]; exact hlen⟩
  · have hwritten := hr.written
    have hread := hr.read
    have he : (s.act (.task ok alloc timer)).ring.elem ((b + j) % n) = s.ring.elem ((b + j) % n) := by
      obtain ⟨hsame, -⟩ | ⟨k, -, -, -, hself, hother⟩ := hr.elem_cases h
      · exact hsame j hj hlt
      · by_cases hne : j = k
        · -- it is taken for an element with a buffer
          subst hne
          rw [hself, refillCtrlElem, if_pos (.inr (.inr hlen))]
        · exact hother j hj hlt hne
    exact ⟨by omega, by omega, by rw [he]; exact hempty, by rw [he]; exact hlen⟩

/-- The host never gets past such an element. -/
theorem stuck_foldl {j : ℕ} (h : Stock b n s) (hs : Stuck b n j s) (as : List CtrlAct) :
    (as.foldl act s).written ≤ j := by
  induction as generalizing s with
  | nil => exact hs.ahead
  | cons a as ih => exact ih (h.act a) (hs.act h a)

/-- One failed allocation: from then on the host writes less than one lap of messages, whatever happens. -/
theorem written_bounded (h : Stock b n s) {v : Bits} (hv : s.task = .refill v) (hf : s.ring.ringFull = false)
    (hsize : s.ctrlRingSize ≠ 0) (ok timer : Bool) (as : List CtrlAct) :
    (as.foldl act (s.act (.task ok 0 timer))).written < s.read + n := by
  have hr : Refills 0 s (s.act (.task ok 0 timer)) := refills_of hv ok 0 timer
  have hwritten := hr.written
  have hread := hr.read
  obtain ⟨k, hk, hkn, hempty, hself, -⟩ := hr.found h hf
  have hlen : (refillCtrlElem s.ctrlRingSize 0 (s.ring.elem ((b + k) % n))).2.len ≠ 0 := by
    rw [refillCtrlElem]
    split
    · rename_i hcond
      exact (hcond.resolve_left (not_not.mpr hempty.2)).resolve_left (not_not.mpr hempty.1)
    · exact hsize
  have hstuck : Stuck b n k (s.act (.task ok 0 timer)) :=
    ⟨by omega, by omega, by rw [hself]; exact refillCtrlElem_failed _ hempty, by rw [hself]; exact hlen⟩
  exact (stuck_foldl (h.act _) hstuck as).trans_lt hkn

/-- The first refill of a ring of 16 misses, and the host sends 40 messages. -/
theorem written_bounded_sixteen :
    let s := List.foldl act (createConfigRings 16 0 256 fun i => 16 + i)
      (.host 8 1 :: .interrupt false :: List.replicate 4 (.task true 32 false))
    ((List.replicate 40 (.host 8 1)).foldl act (s.act (.task true 0 false))).written < s.read + 16 :=
  written_bounded (stock_foldl (stock_create (by decide) 0 256 _).1 _) (v := ⟨true, false, false⟩) (by decide +kernel)
    (by decide +kernel) (by decide +kernel) true false _

end Ctrl

end Qcc730.Ring
