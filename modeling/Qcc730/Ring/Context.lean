import Qcc730.Lib.Modular

/-! The context of a ring.

    A ring is shared by the firmware and the host. Each of the two indices has one writer: the firmware writes
    the write index of a firmware-to-host ring (F2A) and the read index of a host-to-firmware ring (A2F), the
    host writes the other one. Pointers are numbers and 0 is NULL. The counts and indices are bytes in the
    source; no sum below exceeds the number of elements, so they are numbers here. -/

namespace Qcc730.Ring
open Lib

/-- `ring_element_t`. -/
structure Element where
  pBuf : ℕ
  len : ℕ
  info : ℕ
  pBufStart : ℕ
  deriving DecidableEq, Repr

/-- `memset(p_elem, 0, sizeof(ring_element_t))`. -/
def Element.zero : Element := ⟨0, 0, 0, 0⟩

/-- Neither pointer is set. -/
def Element.Empty (e : Element) : Prop := e.pBuf = 0 ∧ e.pBufStart = 0

instance (e : Element) : Decidable e.Empty := inferInstanceAs (Decidable (_ ∧ _))

/-- Both pointers are set. -/
def Element.Filled (e : Element) : Prop := e.pBuf ≠ 0 ∧ e.pBufStart ≠ 0

instance (e : Element) : Decidable e.Filled := inferInstanceAs (Decidable (_ ∧ _))

/-- An element with a buffer: what the callers of `ringif_f2a_pkt_attach` pass, and what the refill functions make
    when they succeed. -/
structure Packet where
  elem : Element
  filled : elem.Filled

/-- `ring_ctx_t`, with the ring it points to. -/
structure RingCtx where
  ringNumElem : ℕ
  /-- the elements at `p_ring_base` -/
  elem : ℕ → Element
  writeIdx : ℕ
  readIdx : ℕ
  ringIdxToClear : ℕ
  ringIdxClearPending : Bool

namespace RingCtx

/-- A store to the element at `i`. -/
def setElem (c : RingCtx) (i : ℕ) (e : Element) : RingCtx := { c with elem := Function.update c.elem i e }

/-- `ringif_ring_full`. -/
def ringFull (c : RingCtx) : Bool :=
  if c.ringNumElem ≤ c.writeIdx then true
  else if c.ringNumElem ≤ c.readIdx then true
  else c.readIdx = (c.writeIdx + 1) % c.ringNumElem

/-- `ringif_ring_empty`. -/
def ringEmpty (c : RingCtx) : Bool :=
  if c.ringNumElem ≤ c.writeIdx then true
  else if c.ringNumElem ≤ c.readIdx then true
  else c.readIdx = c.writeIdx

/-- `ringif_ring_buf_full`: this element and the one before it are in use. -/
def ringBufFull (c : RingCtx) (idx : ℕ) : Bool :=
  let prev := if idx = 0 then c.ringNumElem - 1 else idx - 1
  ¬ (c.elem idx).Empty ∧ ¬ (c.elem prev).Empty

/-- `ringif_f2a_num_elems_to_clear`. -/
def f2aNumElemsToClear (c : RingCtx) : ℕ :=
  if c.ringNumElem ≤ c.readIdx then 0
  else if c.ringIdxToClear < c.readIdx then c.readIdx - c.ringIdxToClear
  else if c.readIdx = c.ringIdxToClear then
    if c.writeIdx = c.readIdx ∧ c.ringIdxClearPending = true then c.ringNumElem else 0
  else c.ringNumElem + c.readIdx - c.ringIdxToClear

/-- `ringif_tickle_f2a_ring`: whether an update is posted. -/
def tickleF2aRing (c : RingCtx) : Bool := 0 < c.f2aNumElemsToClear

/-- `ringif_f2a_pkt_attach`: whether it returns TRUE, and the ring. -/
def f2aPktAttach (c : RingCtx) (e : Element) : Bool × RingCtx :=
  if c.ringFull then (false, c)
  else if ¬ (c.elem c.writeIdx).Empty then (false, c)
  else
    (true, { c.setElem c.writeIdx e with
      writeIdx := (c.writeIdx + 1) % c.ringNumElem
      ringIdxClearPending := true })

/-- `ringif_create_f2a_ring`: the read index the host owns stays when it fits the ring, and the others are set
    to it. -/
def createF2aRing (maxNumElem readIdx : ℕ) : RingCtx :=
  let idx := if readIdx < maxNumElem then readIdx else 0
  { ringNumElem := maxNumElem
    elem := fun _ => .zero
    writeIdx := idx
    readIdx := idx
    ringIdxToClear := idx
    ringIdxClearPending := false }

/-- `ringif_create_a2f_ring`: here it is the write index that the host owns. -/
def createA2fRing (maxNumElem writeIdx : ℕ) : RingCtx :=
  let idx := if writeIdx < maxNumElem then writeIdx else 0
  { ringNumElem := maxNumElem
    elem := fun _ => .zero
    writeIdx := idx
    readIdx := idx
    ringIdxToClear := 0
    ringIdxClearPending := false }

@[simp] theorem setElem_ringNumElem (c : RingCtx) (i : ℕ) (e : Element) :
    (c.setElem i e).ringNumElem = c.ringNumElem := rfl

@[simp] theorem setElem_writeIdx (c : RingCtx) (i : ℕ) (e : Element) : (c.setElem i e).writeIdx = c.writeIdx := rfl

@[simp] theorem setElem_readIdx (c : RingCtx) (i : ℕ) (e : Element) : (c.setElem i e).readIdx = c.readIdx := rfl

@[simp] theorem setElem_ringIdxToClear (c : RingCtx) (i : ℕ) (e : Element) :
    (c.setElem i e).ringIdxToClear = c.ringIdxToClear := rfl

@[simp] theorem setElem_ringIdxClearPending (c : RingCtx) (i : ℕ) (e : Element) :
    (c.setElem i e).ringIdxClearPending = c.ringIdxClearPending := rfl

@[simp] theorem setElem_elem_self (c : RingCtx) (i : ℕ) (e : Element) : (c.setElem i e).elem i = e := by
  simp [setElem]

theorem setElem_elem_of_ne (c : RingCtx) {i j : ℕ} (e : Element) (h : j ≠ i) :
    (c.setElem i e).elem j = c.elem j := by
  simp [setElem, h]

/-- Two elements less than a lap apart are different. -/
theorem setElem_elem_of_lap (c : RingCtx) {b n x j k : ℕ} (e : Element) (hj : x ≤ j) (hj' : j < x + n) (hk : x ≤ k)
    (hk' : k < x + n) (h : j ≠ k) : (c.setElem ((b + k) % n) e).elem ((b + j) % n) = c.elem ((b + j) % n) := by
  apply setElem_elem_of_ne
  rcases Nat.lt_or_gt_of_ne h with hlt | hlt
  · exact mod_ne_mod_of_lt (by omega) (by omega)
  · exact (mod_ne_mod_of_lt (by omega) (by omega)).symm

theorem createA2fRing_lt {n : ℕ} (hn : 0 < n) (w : ℕ) : (createA2fRing n w).writeIdx < n := by
  rw [createA2fRing]
  dsimp only
  split <;> omega

/-- A new ring is not full. -/
theorem createA2fRing_not_full {n : ℕ} (hn : 2 ≤ n) (w : ℕ) : (createA2fRing n w).ringFull = false := by
  have hlt := createA2fRing_lt (show 0 < n by omega) w
  have hlap := mod_ne_mod_of_lt (n := n) (x := (createA2fRing n w).writeIdx) (y := (createA2fRing n w).writeIdx + 1)
    (by omega) (by omega)
  rw [Nat.mod_eq_of_lt hlt] at hlap
  have hread : (createA2fRing n w).readIdx = (createA2fRing n w).writeIdx := rfl
  have hnum : (createA2fRing n w).ringNumElem = n := rfl
  simp only [ringFull, hread, hnum, if_neg hlt.not_ge]
  simpa using hlap

end RingCtx

theorem Element.Filled.not_empty {e : Element} (h : e.Filled) : ¬ e.Empty := fun he => h.1 he.1

theorem Element.zero_empty : Element.zero.Empty := ⟨rfl, rfl⟩

end Qcc730.Ring
