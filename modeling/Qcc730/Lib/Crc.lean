import Qcc730.Lib.Bytes

/-! Cyclic redundancy checks with a reflected polynomial.

    The definition shifts one bit at a time. A shift is linear in exclusive or, so eight of them act on the low
    byte and on the rest apart: the rest only moves down, and what the low byte contributes can be tabulated. -/

namespace Qcc730.Lib.Crc

variable {w : ℕ} (poly : BitVec w)

/-- One bit of the division. -/
def crcBit (c : BitVec w) : BitVec w := if c.getLsbD 0 then (c >>> 1) ^^^ poly else c >>> 1

/-- `n` bits of the division. -/
def crcBits (n : ℕ) (c : BitVec w) : BitVec w := (crcBit poly)^[n] c

/-- One byte of the message. -/
def crcByte (c : BitVec w) (b : UInt8) : BitVec w := crcBits poly 8 (c ^^^ b.toBitVec.setWidth w)

/-- The check of a message, for an initial value and a final exclusive or. -/
def crc (init final : BitVec w) (message : Bytes) : BitVec w := message.foldl (crcByte poly) init ^^^ final

theorem xor_cancel (a b p : BitVec w) : a ^^^ p ^^^ (b ^^^ p) = a ^^^ b := by
  rw [BitVec.xor_assoc, BitVec.xor_comm b p, ← BitVec.xor_assoc p p b, BitVec.xor_self, BitVec.zero_xor]

theorem crcBit_xor (a b : BitVec w) : crcBit poly (a ^^^ b) = crcBit poly a ^^^ crcBit poly b := by
  simp only [crcBit, BitVec.getLsbD_xor, BitVec.ushiftRight_xor_distrib]
  cases a.getLsbD 0 <;> cases b.getLsbD 0
  · rfl
  · exact BitVec.xor_assoc _ _ _
  · simp only [Bool.true_xor, Bool.not_false, if_true, Bool.false_eq_true, if_false]
    rw [BitVec.xor_assoc, BitVec.xor_assoc, BitVec.xor_comm poly]
  · exact (xor_cancel _ _ _).symm

theorem crcBits_xor (n : ℕ) (a b : BitVec w) : crcBits poly n (a ^^^ b) = crcBits poly n a ^^^ crcBits poly n b := by
  induction n generalizing a b with
  | zero => rfl
  | succ n ih =>
    simp only [crcBits, Function.iterate_succ_apply, crcBit_xor] at ih ⊢
    exact ih _ _

/-- Zeros at the low end are only shifted out. -/
theorem crcBits_zeros (n : ℕ) (c : BitVec w) (h : ∀ i < n, c.getLsbD i = false) : crcBits poly n c = c >>> n := by
  induction n generalizing c with
  | zero => exact (BitVec.ushiftRight_zero c).symm
  | succ n ih =>
    have hone : crcBit poly c = c >>> 1 := by rw [crcBit, h 0 (Nat.succ_pos n), if_neg Bool.false_ne_true]
    have hrest := ih (c >>> 1) fun i hi => by
      rw [BitVec.getLsbD_ushiftRight]
      exact h _ (by omega)
    rw [crcBits, Function.iterate_succ_apply, hone]
    exact hrest.trans (by rw [← BitVec.shiftRight_add, Nat.add_comm])

theorem getLsbD_lowByte (i : ℕ) : (0xFF#w).getLsbD i = (decide (i < w) && decide (i < 8)) := by
  have h : Nat.testBit (2 ^ 8 - 1) i = decide (i < 8) := Nat.testBit_two_pow_sub_one 8 i
  exact (BitVec.getLsbD_ofNat w 255 i).trans (by rw [show 255 = 2 ^ 8 - 1 from rfl, h])

/-- The low byte and the rest. -/
theorem split_low (c : BitVec w) : c = (c &&& 0xFF#w) ^^^ ((c >>> 8) <<< 8) := by
  refine BitVec.eq_of_getLsbD_eq fun i hi => ?_
  rw [BitVec.getLsbD_xor, BitVec.getLsbD_and, getLsbD_lowByte, BitVec.getLsbD_shiftLeft, BitVec.getLsbD_ushiftRight]
  by_cases h : i < 8
  · simp [h, hi]
  · simp [h, hi, Nat.add_sub_cancel' (Nat.not_lt.mp h)]

/-- A byte by table: the table holds what eight bits of the division make of it, the rest moves down. -/
theorem crcBits_table (c : BitVec w) : crcBits poly 8 c = crcBits poly 8 (c &&& 0xFF#w) ^^^ (c >>> 8) := by
  have hlow : ∀ i < 8, ((c >>> 8) <<< 8).getLsbD i = false := by
    intro i hi
    rw [BitVec.getLsbD_shiftLeft]
    simp [hi]
  have hrest : ((c >>> 8) <<< 8) >>> 8 = c >>> 8 := by
    refine BitVec.eq_of_getLsbD_eq fun i hi => ?_
    rw [BitVec.getLsbD_ushiftRight, BitVec.getLsbD_shiftLeft, BitVec.getLsbD_ushiftRight, Nat.add_sub_cancel_left]
    by_cases h : 8 + i < w
    · simp [h]
    · simp [h, BitVec.getLsbD_of_ge c _ (Nat.not_lt.mp h)]
  have hsplit := congrArg (crcBits poly 8) (split_low c)
  rw [crcBits_xor, crcBits_zeros poly 8 _ hlow, hrest] at hsplit
  exact hsplit

end Qcc730.Lib.Crc
